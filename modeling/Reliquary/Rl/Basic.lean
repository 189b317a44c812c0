/-
The async RL control plane's vocabulary: what `rl_leases.py` names,
encodes and classifies before it touches a table.

# What is modeled how

- Prompt ids, checkpoints and cooldowns are `Int`, as Python has them:
  the range checks (`u64`, `sqlInt`) are the code's own, and one of them
  is reachable from a request (a prompt id past 63 bits cannot be bound
  to an SQL parameter).
- Times are rationals: every float is one, and the code only adds,
  subtracts and compares them.
- A hash is a parameter (`sha256`). Nothing proven here depends on it
  being one-way; what is proven is which inputs it is given.
- An exception is an `Err` with the source's own text.
-/
import Mathlib

namespace Reliquary.Rl

-- ===== exceptions

/-- The exceptions the control plane raises, by Python class. -/
inductive Err
  | value (text : String)
  | lookup (text : String)
  | permission (text : String)
  /-- An integer outside what a byte field or an SQL parameter holds. -/
  | overflow
  /-- A primary key or a unique index refused a row. -/
  | integrity
  /-- Whatever a callable given by the service raised. -/
  | callable
  deriving DecidableEq, Repr

-- ===== constants

def dayS : ℚ := 86400

/-- What a lease that fell due while the validator was down gets at
boot. -/
def restartGraceS : ℚ := 120

/-- The sweep marks the book alive at most this often. -/
def aliveEveryS : ℚ := 30

/-- A longer silence is a downtime. -/
def downtimeMinS : ℚ := 90

def maxRevealedListed : Nat := 64

def maxPromptsPerRequest : Nat := 1024

/-- The most open leases one hotkey may hold under a global cap. -/
def hotkeyMaxOpen : Nat := 64

/-- The source's `SIGMA_MIN_V4`. -/
def sigmaMin : ℚ := 24 / 100

-- ===== enumerations

/-- A lease's state (`OPEN`, `SUBMITTED`, `EXPIRED`, `RELEASED`). -/
inductive LeaseState
  | opened | submitted | expired | released
  deriving DecidableEq, Repr

/-- Why a prompt was refused (`REFUSALS`). -/
inductive Refusal
  | taken | cooling | blacklisted | quota | stale | banned | full
  deriving DecidableEq, Repr

/-- Why a lease closed without a submission: the charged causes, then
the released ones. `sandbox` is any other cause the sandbox side
names. -/
inductive Cause
  | expired | forfeited | boxFailedOverBudget
  | boxFailed | validatorUnavailable | sandbox (name : String)
  deriving DecidableEq, Repr

/-- A graded group's verdict (`VERDICTS`). -/
inductive Verdict
  | inZone | tooEasy | tooHard | truncated
  deriving DecidableEq, Repr

/-- A prompt's stored state. -/
inductive PromptLife
  | cooldown | blacklisted
  deriving DecidableEq, Repr

-- ===== bytes and bounds

/-- Python's `int.to_bytes(width, "big")`. -/
def toBytes (width n : Nat) : Except Err (List UInt8) :=
  if n < 256 ^ width then
    .ok ((List.range width).map fun i =>
      UInt8.ofNat (n / 256 ^ (width - 1 - i) % 256))
  else .error .overflow

/-- The source's `_u64`: eight big-endian bytes of a non-negative integer. -/
def u64 (value : Int) : Except Err (List UInt8) :=
  if value < 0 then .error (.value "a non-negative integer is required")
  else toBytes 8 value.toNat

/-- Binding an integer to an SQL parameter: 64 bits, signed. -/
def sqlInt (n : Int) : Except Err Unit :=
  if -2 ^ 63 ≤ n ∧ n < 2 ^ 63 then .ok () else .error .overflow

/-- One lowercase hexadecimal digit. -/
def hexDigit (n : Nat) : Char :=
  if n < 10 then Char.ofNat (48 + n) else Char.ofNat (87 + n)

/-- Python's `bytes.hex()`. -/
def hex (bytes : List UInt8) : String :=
  String.ofList (bytes.flatMap fun b =>
    [hexDigit (b.toNat / 16), hexDigit (b.toNat % 16)])

section Hash

variable (sha256 : List UInt8 → List UInt8)

/-- The message `_bound` hashes: the domain, then every part behind its
four-byte length. -/
def boundMessage (domain : List UInt8) :
    List (List UInt8) → Except Err (List UInt8)
  | [] => .ok domain
  | part :: parts => do
      let len ← toBytes 4 part.length
      boundMessage (domain ++ len ++ part) parts

/-- The source's `_bound`. -/
def bound (domain : List UInt8) (parts : List (List UInt8)) :
    Except Err (List UInt8) := do
  let message ← boundMessage domain parts
  pure (sha256 message)

def nonceDomain : String := "reliquary/rl-lease-nonce/v1"

def commitDomain : String := "reliquary/rl-lease-secret-commit/v1"

/-- The forced draw's nonce for (env, prompt, k), the same for every
lease of that key. -/
def leaseNonce (secret : List UInt8) (environment : String)
    (promptIdx checkpoint : Int) : Except Err (List UInt8) := do
  let p ← u64 promptIdx
  let k ← u64 checkpoint
  bound sha256 nonceDomain.toUTF8.toList
    [secret, environment.toUTF8.toList, p, k]

/-- What is published of a secret when its checkpoint is adopted. -/
def secretCommitment (secret : List UInt8) (checkpoint : Int) :
    Except Err (List UInt8) := do
  let k ← u64 checkpoint
  bound sha256 commitDomain.toUTF8.toList [secret, k]

/-- Does a revealed secret open its commitment? -/
def verifyReveal (commitment : List UInt8) (checkpoint : Int)
    (secret : List UInt8) : Bool :=
  match secretCommitment sha256 secret checkpoint with
  | .ok digest => digest == commitment
  | .error _ => false

end Hash

-- ===== grading

/-- A graded group's verdict: truncated past `maxTruncated`, else in zone at
population sigma at least `sigmaMin`, else too easy at mean at least one
half, else too hard. The standard deviation is compared through its
square: both sides are non-negative. -/
def classifyGroup (rewards : List ℚ) (truncated : List Bool)
    (maxTruncated : Nat) : Except Err Verdict :=
  if rewards = [] ∨ rewards.length ≠ truncated.length then
    .error (.value "one finite reward and one truncation flag per rollout")
  else if truncated.count true > maxTruncated then .ok .truncated
  else
    let mean : ℚ := rewards.sum / rewards.length
    let variance : ℚ :=
      (rewards.map fun r => (r - mean) ^ 2).sum / rewards.length
    if variance ≥ sigmaMin ^ 2 then .ok .inZone
    else if mean ≥ 1 / 2 then .ok .tooEasy else .ok .tooHard

-- ===== prompt ranges

/-- The rows RL may draw from, `[start, stop)` less the
sorted, disjoint intervals `exclude`. -/
structure PromptRows where
  start : Int
  stop : Int
  exclude : List (Int × Int)
  start_nonneg : 0 ≤ start
  start_lt_stop : start < stop
  exclude_inside : ∀ ab ∈ exclude, start ≤ ab.1 ∧ ab.1 < ab.2 ∧ ab.2 ≤ stop
  exclude_sorted : exclude.Pairwise fun ab cd => ab.2 ≤ cd.1
  some_row : 0 < stop - start - (exclude.map fun ab => ab.2 - ab.1).sum

/-- Membership (`__contains__`): the last interval that starts at or below
the row does not hold it. -/
def PromptRows.contains (rows : PromptRows) (row : Int) : Bool :=
  decide (rows.start ≤ row ∧ row < rows.stop) &&
    match (rows.exclude.takeWhile fun ab => decide (ab.1 ≤ row)).getLast? with
    | none => true
    | some ab => !decide (ab.1 ≤ row ∧ row < ab.2)

-- ===== leases

/-- One request of an interval. -/
structure LeaseRequest where
  hotkey : String
  environment : String
  promptIds : List Int
  checkpoint : Int
  deriving DecidableEq, Repr

/-- A lease as its holder is told it. -/
structure Lease where
  leaseId : String
  hotkey : String
  environment : String
  promptIdx : Int
  checkpoint : Int
  nonce : String
  issuedAt : ℚ
  expiresAt : ℚ
  state : LeaseState
  deriving DecidableEq, Repr

/-- One graded group of a prompt, as published. -/
structure Scan where
  seq : Nat
  environment : String
  promptIdx : Int
  checkpoint : Int
  rewards : List ℚ
  verdict : Verdict
  firstScan : Bool
  at_ : ℚ
  deriving DecidableEq, Repr

/-- What one request of the batch got. -/
structure LeaseAnswer where
  leases : List Lease
  refused : List (Int × Refusal)
  deriving DecidableEq, Repr

-- ===== config

/-- The book's configuration (`LeaseBookConfig`), with what `__post_init__` checks. The two live
callables (`cooldown_of`, `lane_max`) are read at each call and come
with it (`Live`). -/
structure BookConfig where
  expiryS : List (String × ℚ)
  maxLag : Int := 16
  promptRange : List (String × PromptRows) := []
  maxPendingGroups : Option Nat := none
  laneReserve : List (String × Nat) := []
  boxFailedReleasesPerDay : Nat := 48
  expiry_served : expiryS ≠ []
  expiry_pos : ∀ p ∈ expiryS, 0 < p.2
  maxLag_nonneg : 0 ≤ maxLag := by decide
  pending_pos : ∀ n ∈ maxPendingGroups, 1 ≤ n := by simp
  reserve_keys : (laneReserve.map Prod.fst).Nodup := by simp
  reserve_fits : laneReserve ≠ [] →
    ∃ n ∈ maxPendingGroups, (laneReserve.map Prod.snd).sum ≤ n := by simp

/-- What the service's callables answer during one call: the cooldown of
an env (`none`: the callable raised), the lane maxima (`none`: not
configured) and the sandbox side's verdict on a lease (`none`: no
verdict, no check set, or a check that raised: the code charges all
three alike). -/
structure Live where
  cooldownOf : String → Option Int
  laneMax : Option (Except Err (List (String × Nat)))
  sandboxFailure : Lease → Option (Cause × String)

/-- May `env` get one more lease? Without lanes, the
global cap. With lanes, under its own reserve always; past it, while the
buffered groups, each env counted at least at its reserve, stay under
the cap. -/
def laneRoom (env : String) (pending : Nat) (byEnv reserve : List (String × Nat))
    (cap : Nat) : Bool :=
  if reserve = [] then decide (pending < cap)
  else if (byEnv.lookup env).getD 0 < (reserve.lookup env).getD 0 then true
  else
    let held := (reserve.map fun er => max ((byEnv.lookup er.1).getD 0) er.2).sum
      + ((byEnv.filter fun en => (reserve.lookup en.1).isNone).map Prod.snd).sum
    decide (held < cap)

end Reliquary.Rl
