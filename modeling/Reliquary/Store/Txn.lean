/-
Fallible methods over a transactional file and a process's memory.

# The semantics

A `World` is a durable file and the memory of the process that opened
it. A method (`Prog`) reads and writes both and ends with a value or
with an exception; what it wrote before the exception stays written.
`txn` is the transaction block: it commits by doing nothing, and on an
exception it puts the FILE back as it was when the block began. It does
not put the memory back. A method called inside the block of another
joins it, so it is its body that is called there.

# The rules

`Spec P p Q E` is the total-correctness triple with an exceptional
postcondition: from `P`, `p` ends, with `Q` at its value or with `E` at
its exception. The rules follow the constructors (`pure`, `bind`,
`raise`, `modify`, a guard, a loop, `txn`); `Spec.txn` is the one that
sees the asymmetry between the file and the memory.
-/
import Mathlib

namespace Reliquary.Store

-- ===== the semantics

/-- A durable file and the memory of the process that has it open. -/
structure World (D M : Type) where
  file : D
  mem : M

/-- A method: a value or an exception, and the world it leaves. -/
structure Prog (ε D M α : Type) where
  run : World D M → Except ε α × World D M

namespace Prog

variable {ε D M α β : Type} {p : Prog ε D M α}

/-- Run one method, then, unless it raised, the next. -/
def seq (p : Prog ε D M α) (f : α → Prog ε D M β) : Prog ε D M β :=
  ⟨fun w =>
    match p.run w with
    | (.ok a, w') => (f a).run w'
    | (.error e, w') => (.error e, w')⟩

instance : Monad (Prog ε D M) where
  pure a := ⟨fun w => (.ok a, w)⟩
  bind := seq

/-- The current world. -/
def get : Prog ε D M (World D M) := ⟨fun w => (.ok w, w)⟩

/-- Write the world. -/
def modify (f : World D M → World D M) : Prog ε D M Unit :=
  ⟨fun w => (.ok (), f w)⟩

/-- Raise. -/
def raise (e : ε) : Prog ε D M α := ⟨fun w => (.error e, w)⟩

/-- A computation that may raise and touches nothing. -/
def lift (x : Except ε α) : Prog ε D M α := ⟨fun w => (x, w)⟩

/-- A loop with an accumulator, stopped by the first exception. -/
def loop (f : β → α → Prog ε D M β) : β → List α → Prog ε D M β
  | b, [] => pure b
  | b, a :: as => f b a >>= fun b' => loop f b' as

/-- The transaction block: an exception puts the file back and leaves
the memory as it was when raised. -/
def txn (p : Prog ε D M α) : Prog ε D M α :=
  ⟨fun w =>
    match p.run w with
    | (.ok a, w') => (.ok a, w')
    | (.error e, w') => (.error e, { w' with file := w.file })⟩

/-- Run a method, and on an exception that `catches`, the handler. -/
def rescue (catches : ε → Bool) (p : Prog ε D M α)
    (handler : ε → Prog ε D M α) : Prog ε D M α :=
  ⟨fun w =>
    match p.run w with
    | (.ok a, w') => (.ok a, w')
    | (.error e, w') =>
      if catches e then (handler e).run w' else (.error e, w')⟩

@[simp] theorem pure_run (a : α) (w : World D M) :
    (pure a : Prog ε D M α).run w = (.ok a, w) := rfl

@[simp] theorem bind_run (p : Prog ε D M α) (f : α → Prog ε D M β)
    (w : World D M) : (p >>= f).run w = match p.run w with
      | (.ok a, w') => (f a).run w'
      | (.error e, w') => (.error e, w') := rfl

@[simp] theorem get_run (w : World D M) :
    (get : Prog ε D M _).run w = (.ok w, w) := rfl

@[simp] theorem modify_run (f : World D M → World D M) (w : World D M) :
    (modify f : Prog ε D M _).run w = (.ok (), f w) := rfl

@[simp] theorem raise_run (e : ε) (w : World D M) :
    (raise e : Prog ε D M α).run w = (.error e, w) := rfl

@[simp] theorem lift_run (x : Except ε α) (w : World D M) :
    (lift x : Prog ε D M α).run w = (x, w) := rfl

theorem rescue_run (catches : ε → Bool) (p : Prog ε D M α)
    (handler : ε → Prog ε D M α) (w : World D M) :
    (rescue catches p handler).run w = match p.run w with
      | (.ok a, w') => (.ok a, w')
      | (.error e, w') =>
        if catches e then (handler e).run w' else (.error e, w') := rfl

-- ===== the rules

/-- From `P`, the method ends with `Q` at its value or with `E` at its
exception. -/
def Spec (P : World D M → Prop) (p : Prog ε D M α)
    (Q : α → World D M → Prop) (E : ε → World D M → Prop) : Prop :=
  ∀ w, P w → match p.run w with
    | (.ok a, w') => Q a w'
    | (.error e, w') => E e w'

variable {P P' : World D M → Prop} {Q : α → World D M → Prop}
  {E : ε → World D M → Prop} {f : α → Prog ε D M β} {R : β → World D M → Prop}
  {w₀ : World D M} {x : Except ε α} {Q' : α → World D M → Prop}
  {E' : ε → World D M → Prop}

theorem Spec.pure {a : α} (h : ∀ w, P w → Q a w) :
    Spec P (Pure.pure a : Prog ε D M α) Q E :=
  fun w hw => h w hw

theorem Spec.raise {e : ε} (h : ∀ w, P w → E e w) :
    Spec P (Prog.raise e : Prog ε D M α) Q E :=
  fun w hw => h w hw

theorem Spec.modify {f : World D M → World D M}
    {Q : Unit → World D M → Prop} (h : ∀ w, P w → Q () (f w)) :
    Spec P (Prog.modify f : Prog ε D M Unit) Q E :=
  fun w hw => h w hw

theorem Spec.lift (hok : ∀ a, x = .ok a → ∀ w, P w → Q a w)
    (herr : ∀ e, x = .error e → ∀ w, P w → E e w) :
    Spec P (Prog.lift x : Prog ε D M α) Q E := by
  intro w hw
  cases x with
  | ok a => exact hok a rfl w hw
  | error e => exact herr e rfl w hw

theorem Spec.bind (hp : Spec P p Q E)
    (hf : ∀ a, Spec (Q a) (f a) R E) : Spec P (p >>= f) R E := by
  intro w hw
  have h := hp w hw
  rw [bind_run]
  split at h
  next a w' _ => exact hf a w' h
  next e w' _ => exact h

/-- The first two calls of a sequence as one. -/
theorem Spec.bind_assoc {γ : Type} {g : β → Prog ε D M γ}
    {R : γ → World D M → Prop} (h : Spec P (p >>= f >>= g) R E) :
    Spec P (p >>= fun a => f a >>= g) R E := by
  intro w hw
  have hr := h w hw
  rw [bind_run, bind_run] at hr
  rw [bind_run]
  cases hp : p.run w with
  | mk x w' =>
    rw [hp] at hr
    cases x with
    | ok a => exact hr
    | error e => exact hr

/-- Reading the world binds the world the precondition is about. -/
theorem Spec.get_bind {f : World D M → Prog ε D M β}
    (h : ∀ w₀, P w₀ → Spec (fun w => w = w₀) (f w₀) R E) :
    Spec P (Prog.get >>= f) R E := by
  intro w hw
  exact h w hw w rfl

theorem Spec.conseq (hp : Spec P p Q E) (hP : ∀ w, P' w → P w)
    (hQ : ∀ a w, Q a w → Q' a w) (hE : ∀ e w, E e w → E' e w) :
    Spec P' p Q' E' := by
  intro w hw
  have h := hp w (hP w hw)
  split at h
  next a w' _ => exact hQ a w' h
  next e w' _ => exact hE e w' h

/-- The consequence rule at the precondition alone. -/
theorem Spec.onPre (hp : Spec P p Q E) (hP : ∀ w, P' w → P w) : Spec P' p Q E :=
  hp.conseq hP (fun _ _ hq => hq) fun _ _ he => he

/-- The consequence rule at the value alone. -/
theorem Spec.onValue (hp : Spec P p Q E) (hQ : ∀ a w, Q a w → Q' a w) :
    Spec P p Q' E :=
  hp.conseq (fun _ hw => hw) hQ fun _ _ he => he

/-- The consequence rule at the exception alone. -/
theorem Spec.onError (hp : Spec P p Q E) (hE : ∀ e w, E e w → E' e w) :
    Spec P p Q E' :=
  hp.conseq (fun _ hw => hw) (fun _ _ hq => hq) hE

/-- A method that does not raise meets any exceptional postcondition. -/
theorem Spec.total (hp : Spec P p Q fun _ _ => False) : Spec P p Q E :=
  hp.onError fun _ _ hf => hf.elim

theorem Spec.ite {c : Prop} [Decidable c] {p q : Prog ε D M α}
    (hp : c → Spec P p Q E) (hq : ¬c → Spec P q Q E) :
    Spec P (if c then p else q) Q E := by
  split
  next hc => exact hp hc
  next hc => exact hq hc

/-- A write from a known world leaves a known one. -/
theorem Spec.modify_bind {g : World D M → World D M} {f : Unit → Prog ε D M β}
    (h : Spec (fun w => w = g w₀) (f ()) R E) :
    Spec (fun w => w = w₀) (Prog.modify g >>= f) R E := by
  intro w hw
  subst hw
  exact h (g w) rfl

/-- A computation that touches nothing, from a known world. -/
theorem Spec.lift_bind (hok : ∀ a, x = .ok a → Spec (fun w => w = w₀) (f a) R E)
    (herr : ∀ e, x = .error e → E e w₀) :
    Spec (fun w => w = w₀) (Prog.lift x >>= f) R E := by
  intro w hw
  subst hw
  cases x with
  | ok a => exact hok a rfl w rfl
  | error e => exact herr e rfl

/-- Two triples of one method. -/
theorem Spec.and (h : Spec P p Q E) (h' : Spec P p Q' E') :
    Spec P p (fun a w => Q a w ∧ Q' a w) fun e w => E e w ∧ E' e w := by
  intro w hw
  have h₁ := h w hw
  have h₂ := h' w hw
  cases hp : p.run w with
  | mk x w' =>
    rw [hp] at h₁ h₂
    cases x with
    | ok a => exact ⟨h₁, h₂⟩
    | error e => exact ⟨h₁, h₂⟩

/-- A triple is one for each world of its precondition. -/
theorem Spec.pointwise
    (h : ∀ w₀, P w₀ → Spec (fun w => w = w₀) p Q E) : Spec P p Q E :=
  fun w hw => h w hw w rfl

/-- A loop, by what holds of the part done. -/
theorem Spec.loop {f : β → α → Prog ε D M β} {I : List α → β → World D M → Prop}
    (h : ∀ done b a, Spec (I done b) (f b a) (I (done ++ [a])) E)
    (as done : List α) (b : β) :
    Spec (I done b) (Prog.loop f b as) (I (done ++ as)) E := by
  induction as generalizing done b with
  | nil =>
    rw [List.append_nil]
    exact Spec.pure fun w hw => hw
  | cons a as ih =>
    refine Spec.bind (h done b a) fun b' => ?_
    have hrest := ih (done ++ [a]) b'
    rwa [List.append_assoc] at hrest

/-- A block: its normal end is its body's; its exception keeps the file
the block began with, and the memory the body left. -/
theorem Spec.txn (hp : Spec P p Q E) : Spec P (Prog.txn p) Q
      fun e w' => ∃ w wᵣ, P w ∧ E e wᵣ ∧ w' = { wᵣ with file := w.file } := by
  intro w hw
  have h := hp w hw
  unfold Prog.txn
  dsimp only
  split at h
  next a w' _ => exact h
  next e w' _ => exact ⟨w, w', hw, h, rfl⟩

/-- A block, for an invariant that is one part about the file and one
about the memory. -/
theorem Spec.txn_split {F : D → Prop} {G : M → Prop} (hp : Spec P p Q E)
    (hF : ∀ w, P w → F w.file) (hG : ∀ e w, E e w → G w.mem) :
    Spec P (Prog.txn p) Q fun _ w => F w.file ∧ G w.mem := by
  refine (Spec.txn hp).onError ?_
  rintro e w ⟨w₁, w₂, hw₁, hw₂, rfl⟩
  exact ⟨hF w₁ hw₁, hG e w₂ hw₂⟩

/-- A block whose body began in `w₀`. -/
theorem Spec.txn_at (hp : Spec (fun w => w = w₀) p Q E) :
    Spec (fun w => w = w₀) (Prog.txn p) Q
      fun e w => ∃ wᵣ, E e wᵣ ∧ w = { wᵣ with file := w₀.file } := by
  refine (Spec.txn hp).onError ?_
  intro e w hw
  obtain ⟨w₁, wᵣ, hw₁, he, heq⟩ := hw
  rw [hw₁] at heq
  exact ⟨wᵣ, he, heq⟩

/-- A block whose body raises with the memory as it was. -/
theorem Spec.txn_mem (hp : Spec (fun w => w = w₀) p Q fun _ w =>
    w.mem = w₀.mem) : Spec (fun w => w = w₀) (Prog.txn p) Q
      fun _ w => w = w₀ := by
  refine (Spec.txn_at hp).onError ?_
  rintro e w ⟨wᵣ, hmem, rfl⟩
  rw [hmem]

/-- A block whose body does not raise. -/
theorem Spec.txn_total (hp : Spec P p Q fun _ _ => False) :
    Spec P (Prog.txn p) Q fun _ _ => False := by
  refine (Spec.txn hp).onError ?_
  intro e w hw
  obtain ⟨_, _, _, hf, _⟩ := hw
  exact hf

/-- What a triple says of one run. -/
theorem Spec.run (hp : Spec P p Q E) {w : World D M}
    (hw : P w) : (∃ a, (p.run w).1 = .ok a ∧ Q a (p.run w).2)
      ∨ ∃ e, (p.run w).1 = .error e ∧ E e (p.run w).2 := by
  have h := hp w hw
  split at h
  next a w' hpw =>
    rw [hpw]
    exact .inl ⟨a, rfl, h⟩
  next e w' hpw =>
    rw [hpw]
    exact .inr ⟨e, rfl, h⟩

/-- What ran. -/
theorem Spec.self (p : Prog ε D M α) (w₀ : World D M) :
    Spec (fun w => w = w₀) p (fun a w => p.run w₀ = (.ok a, w))
      fun e w => p.run w₀ = (.error e, w) := by
  rintro w rfl
  split
  next h => exact h
  next h => exact h

/-- The world a method leaves, when both ends agree on it. -/
theorem Spec.world {I : World D M → Prop}
    (hp : Spec P p (fun _ w => I w) fun _ w => I w) {w : World D M}
    (hw : P w) : I (p.run w).2 := by
  rcases hp.run hw with ⟨a, -, h⟩ | ⟨e, -, h⟩
  · exact h
  · exact h

/-- The world left by a method that changes nothing when it raises. -/
theorem Spec.left {I : World D M → Prop}
    (hp : Spec (fun w => w = w₀) p Q fun _ w => w = w₀) (hw : I w₀)
    (hQ : ∀ a w, Q a w → I w) : I (p.run w₀).2 := by
  refine (hp.conseq (fun _ h => h) hQ ?_).world rfl
  rintro _ w rfl
  exact hw

end Prog

-- ===== parts

/-- A component of a larger file and memory. -/
structure Part (D M D₁ M₁ : Type) where
  file : D → D₁
  setFile : D₁ → D → D
  mem : M → M₁
  setMem : M₁ → M → M

variable {ε D M D₁ M₁ α : Type}

/-- The component's world. -/
def Part.view (part : Part D M D₁ M₁) (w : World D M) : World D₁ M₁ :=
  ⟨part.file w.file, part.mem w.mem⟩

/-- The larger world with the component's replaced. -/
def Part.set (part : Part D M D₁ M₁) (v : World D₁ M₁) (w : World D M) :
    World D M :=
  ⟨part.setFile v.file w.file, part.setMem v.mem w.mem⟩

/-- A method of the component, called in the larger world. -/
def Prog.within (part : Part D M D₁ M₁) (p : Prog ε D₁ M₁ α) : Prog ε D M α :=
  ⟨fun w => ((p.run (part.view w)).1, part.set (p.run (part.view w)).2 w)⟩

/-- It does to the component what it does, and nothing else. -/
theorem Prog.Spec.within {part : Part D M D₁ M₁} {p : Prog ε D₁ M₁ α}
    {Q : α → World D₁ M₁ → Prop} {E : ε → World D₁ M₁ → Prop}
    {w₀ : World D M} (hp : Prog.Spec (fun v => v = part.view w₀) p Q E) :
    Prog.Spec (fun w => w = w₀) (Prog.within part p)
      (fun a w => ∃ v, Q a v ∧ w = part.set v w₀)
      fun e w => ∃ v, E e v ∧ w = part.set v w₀ := by
  intro w hw
  rw [hw]
  have h := hp (part.view w₀) rfl
  unfold Prog.within
  dsimp only
  split at h
  next a v hv =>
    rw [hv]
    exact ⟨v, h, rfl⟩
  next e v hv =>
    rw [hv]
    exact ⟨v, h, rfl⟩

end Reliquary.Store
