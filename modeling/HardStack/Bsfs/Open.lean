import HardStack.Bsfs.Model

/-! # Open files

`file.c`: `bsfs_fop_open`, `bsfs_fop_release` and `bsfs_drain_open_files` on one node, by any number of
threads. A thread is at a point between two critical sections; what comes next is one of them, or a call
that may fail, and its answer comes with the step. An open file has the number of the thread that opens
it. A step that uses memory that is not allocated has no result; one that is not the thread's next leaves
everything as it is. `ops->release` and `BSFS_HAS_RELEASE` are set. -/

namespace HardStack.Bsfs.Open

open HardStack.Bsfs.Model (BS_DEACTIVATED_BIAS)

/-- `struct bsfs_open_node`. -/
structure OpenNode where
  refcnt : ℤ
  files : List ℕ
  deriving DecidableEq

/-- Who calls `bsfs_put_open_node`: an open whose `ops->open` fails, a release, or a drain. -/
inductive Caller
  | failed
  | released
  | drained
  deriving DecidableEq

/-- Where a thread is, with its local pointers to open nodes. -/
inductive Pc
  | idle
  | opening
  | getting (newOn : ℕ)
  | allocating
  | gotten (newOn : ℕ)
  | calling
  | finishing (ok : Bool)
  | isOpen
  | putting (caller : Caller)
  | putLocked (caller : Caller) (on : ℕ)
  | putFree (caller : Caller) (on : ℕ)
  | draining (on : ℕ)
  | closed
  deriving DecidableEq

/-- The node. `base` is a ghost, the active count without the opens on their way; `releases` is one, too:
how often `ops->release` has been called for a file. -/
structure State where
  heap : ℕ → Option OpenNode
  attrOpen : ℕ
  active : ℤ
  base : ℤ
  pc : ℕ → Pc
  released : ℕ → Bool
  releases : ℕ → ℕ

/-- What a step answers: a call that fails or not, new memory; or what an idle thread begins. -/
inductive Answer
  | «open»
  | release
  | drain
  | ok
  | fail
  | node (p : ℕ)
  deriving DecidableEq

section

variable (s : State)

def State.goto (t : ℕ) (pc : Pc) : State := { s with pc := Function.update s.pc t pc }

def State.write (on : ℕ) (node : OpenNode) : State :=
  { s with heap := Function.update s.heap on (some node) }

/-- The thread has a `struct bsfs_open_file`. -/
def Pc.hasFile : Pc → Bool
  | .getting _ | .allocating | .gotten _ | .calling | .finishing _ | .isOpen => true
  | .putting c | .putLocked c _ | .putFree c _ => c ≠ .drained
  | _ => false

/-- `bsfs_release_file`. -/
def releaseFile (t : ℕ) : Option State :=
  if (s.pc t).hasFile then
    if s.released t then some s
    else some { s with
      released := Function.update s.released t true
      releases := Function.update s.releases t (s.releases t + 1) }
  else none

/-- `kfree` of an open node. To free one that has references has no result. -/
def kfree (on : ℕ) : Option State :=
  if on = 0 then some s
  else do
    let node ← s.heap on
    if node.refcnt = 0 then some { s with heap := Function.update s.heap on none } else none

/-- The critical section of `bsfs_get_open_node`. -/
def getOpenNode (t newOn : ℕ) : Option State :=
  let s' := if s.attrOpen = 0 ∧ newOn ≠ 0 then { s with attrOpen := newOn } else s
  let newOn := if s.attrOpen = 0 ∧ newOn ≠ 0 then 0 else newOn
  let on := s'.attrOpen
  if on ≠ 0 then do
    let node ← s'.heap on
    some ((s'.write on ⟨node.refcnt + 1, node.files ++ [t]⟩).goto t (.gotten newOn))
  else some (s'.goto t .allocating)

/-- The critical section of `bsfs_put_open_node`. -/
def putOpenNode (t : ℕ) (caller : Caller) (on : ℕ) : Option State := do
  let node ← s.heap on
  if caller ≠ .drained ∧ t ∉ node.files then none
  else
    let files := if caller ≠ .drained then node.files.erase t else node.files
    let s := s.write on ⟨node.refcnt - 1, files⟩
    if node.refcnt - 1 = 0 then some ({ s with attrOpen := 0 }.goto t (.putFree caller on))
    else some (s.goto t (.putFree caller 0))

/-- The first critical section of `bsfs_drain_open_files`. -/
def drainOpenFiles (t : ℕ) : Option State :=
  let on := s.attrOpen
  if on ≠ 0 then do
    let node ← s.heap on
    some ((s.write on { node with refcnt := node.refcnt + 1 }).goto t (.draining on))
  else some (s.goto t .closed)

/-- A step of a thread. -/
def act (t : ℕ) : Pc → Answer → Option State
  | .idle, .open =>
    if 0 ≤ s.active then some ({ s with active := s.active + 1 }.goto t .opening)
    else some (s.goto t .closed)
  | .opening, .ok => some (s.goto t (.getting 0))
  | .opening, .fail => some (s.goto t (.finishing false))
  | .getting newOn, .ok => getOpenNode s t newOn
  | .allocating, .node p =>
    if p ≠ 0 ∧ s.heap p = none then some ((s.write p ⟨0, []⟩).goto t (.getting p)) else some s
  | .allocating, .fail => some (s.goto t (.finishing false))
  | .gotten newOn, .ok => do
    let s ← kfree s newOn
    some (s.goto t .calling)
  | .calling, .ok => some (s.goto t (.finishing true))
  | .calling, .fail => some (s.goto t (.putting .failed))
  | .finishing ok, .ok =>
    some ({ s with active := s.active - 1 }.goto t (if ok then .isOpen else .closed))
  | .isOpen, .release => do
    let s ← releaseFile s t
    some (s.goto t (.putting .released))
  | .idle, .drain => drainOpenFiles s t
  | .draining on, .ok => do
    let node ← s.heap on
    let s ← node.files.foldlM releaseFile s
    some (s.goto t (.putting .drained))
  | .putting caller, .ok => some (s.goto t (.putLocked caller s.attrOpen))
  | .putLocked caller on, .ok => putOpenNode s t caller on
  | .putFree caller on, .ok => do
    let s ← kfree s on
    some (s.goto t (if caller = .failed then .finishing false else .closed))
  | _, _ => some s

/-- A thread goes on, or the node is deactivated. -/
inductive Event
  | thread (t : ℕ) (answer : Answer)
  | deactivate

def exec : Event → Option State
  | .thread t answer => act s t (s.pc t) answer
  | .deactivate =>
    if 0 ≤ s.active then
      some { s with active := s.active + BS_DEACTIVATED_BIAS, base := s.base + BS_DEACTIVATED_BIAS }
    else some s

end

/-- The events one after another. -/
def run (s : State) (events : List Event) : Option State := events.foldlM exec s

/-- The node without any open file. -/
def init (active : ℤ) : State where
  heap := fun _ => none
  attrOpen := 0
  active := active
  base := active
  pc := fun _ => .idle
  released := fun _ => false
  releases := fun _ => 0

end HardStack.Bsfs.Open
