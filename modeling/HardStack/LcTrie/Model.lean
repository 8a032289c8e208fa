import Mathlib

/-! # The trie of `Algorithem/bitmap/LC-trie`

`bits32_trie.h`, `bits32_trie_new.c`, `bits32_trie_insert.c`, `bits32_trie_lookup.c`,
`bits32_trie_remove.c`, with a `long` of 64 bits. A `struct b32t_tnode` is a node, a pointer to its
key vector is its address, and `0` is `NULL`. The key vector of the trie itself is the node at `t`;
its `parent` is the word in front of the trie, which belongs to no `struct b32t_tnode`, and `outside`
says that this word has been read. What `kmalloc` returns is an argument. -/

namespace HardStack.LcTrie.Model

def B32T_KEYLENGTH : ℕ := 32

/-- `struct b32t_tnode` with its `struct b32t_key_vector`. -/
structure Node where
  parent : ℕ
  key : ℕ
  pos : ℕ
  bits : ℕ
  leaf : List ℕ
  tnode : ℕ → ℕ

structure State where
  mem : ℕ → Option Node
  outside : Bool

/-- What ends a call: an access to memory that is not allocated, `panic`, `__fls(0)`, or a loop that
has not ended. -/
inductive Fault
  | wild
  | bug
  | fls
  | fuel
  deriving DecidableEq, Repr

namespace State

variable (s : State)

def load (n : ℕ) : Except Fault Node :=
  match s.mem n with
  | none => .error .wild
  | some v => .ok v

def store (n : ℕ) (v : Node) : State := { s with mem := Function.update s.mem n (some v) }

/-- `b32t_node_free`. -/
def nodeFree (n : ℕ) : Except Fault State := do
  let _ ← s.load n
  .ok { s with mem := Function.update s.mem n none }

/-- `B32T_NODE_INIT_PARENT`. -/
def nodeInitParent (n p : ℕ) : Except Fault State := do
  let v ← s.load n
  .ok (s.store n { v with parent := p })

/-- `b32t_node_set_parent`. -/
def nodeSetParent (n tp : ℕ) : Except Fault State :=
  if n = 0 then .ok s else s.nodeInitParent n tp

end State

/-- `__fls`. -/
def fls (word : ℕ) : Except Fault ℕ := if word = 0 then .error .fls else .ok word.log2

/-- `B32T_IS_TRIE`. -/
def isTrie (n : Node) : Bool := decide (n.pos ≥ B32T_KEYLENGTH)

/-- `b32t_get_cindex`. -/
def getCindex (key : ℕ) (kv : Node) : ℕ := (key ^^^ kv.key) % 2 ^ 32 / 2 ^ kv.pos

/-- `b32t_get_index`. -/
def getIndex (key : ℕ) (kv : Node) : ℕ := (key ^^^ kv.key) / 2 ^ kv.pos

/-- `b32t_child_length`: the lowest bit is cleared. -/
def childLength (tn : Node) : ℕ := 2 ^ tn.bits / 2 * 2

/-- `b32t_put_child_index`. -/
def putChildIndex (s : State) (tn i n : ℕ) : Except Fault State := do
  let v ← s.load tn
  if isTrie v then
    if i ≠ 0 then .error .bug else .ok (s.store tn { v with tnode := Function.update v.tnode i n })
  else if i ≥ childLength v then .error .bug
  else .ok (s.store tn { v with tnode := Function.update v.tnode i n })

/-- `b32t_put_child_key`. -/
def putChildKey (s : State) (tp key n : ℕ) : Except Fault State := do
  let v ← s.load tp
  if isTrie v then .ok (s.store tp { v with tnode := Function.update v.tnode 0 n })
  else putChildIndex s tp (getIndex key v) n

/-- `b32t_leaf_new` in the memory `l`; what `kmalloc` leaves there is `junk`. -/
def leafNew (s : State) (l : ℕ) (junk : Node) (key fa : ℕ) : State :=
  s.store l { junk with key := key, pos := 0, bits := 0, leaf := if fa = 0 then [] else [fa] }

/-- `b32t_tnode_new` in the memory `tn`. -/
def tnodeNew (s : State) (tn : ℕ) (junk : Node) (key pos bits : ℕ) : Except Fault State :=
  let shift := pos + bits
  if bits = 0 ∨ shift > B32T_KEYLENGTH then .error .bug
  else
    let key := if shift < B32T_KEYLENGTH then key / 2 ^ shift * 2 ^ shift else 0
    .ok (s.store tn { junk with key := key, pos := pos, bits := bits })

/-- `b32t_trie_new` in the memory `t`, with the word `above` in front of it. -/
def trieNew (t above : ℕ) : State :=
  { mem := Function.update (fun _ => none) t (some ⟨above, 0, B32T_KEYLENGTH, 0, [], fun _ => 0⟩)
    outside := false }

/-- The loop of `b32t_find_node`: the node, and `*tp`. -/
def findNodeLoop (s : State) (key : ℕ) : ℕ → ℕ → ℕ → Except Fault (ℕ × ℕ)
  | 0, _, _ => .error .fuel
  | fuel + 1, pn, index => do
    let v ← s.load pn
    let n := v.tnode index
    if n = 0 then .ok (0, pn)
    else do
      let w ← s.load n
      let index := getCindex key w
      if index ≥ 2 ^ w.bits then .ok (0, pn)
      else if w.bits ≠ 0 then findNodeLoop s key fuel n index
      else .ok (n, pn)

/-- `b32t_find_node`. -/
def findNode (fuel t : ℕ) (s : State) (key : ℕ) : Except Fault (ℕ × ℕ) := findNodeLoop s key fuel t 0

/-- The loop of `b32t_find_leaf`. -/
def findLeafLoop (key : ℕ) (remove : Bool) : ℕ → State → ℕ → Except Fault (State × ℕ)
  | 0, _, _ => .error .fuel
  | fuel + 1, s, tp => do
    let v ← s.load tp
    let index := getCindex key v
    if index ≥ 2 ^ v.bits then .ok (s, 0)
    else do
      let n := v.tnode index
      if n = 0 then .ok (s, 0)
      else do
        let w ← s.load n
        if w.bits = 0 then
          if w.key = key then
            if remove then do
              let s ← putChildIndex s tp index 0
              .ok (s, n)
            else .ok (s, n)
          else .ok (s, 0)
        else findLeafLoop key remove fuel s n

/-- `b32t_find_leaf`. -/
def findLeaf (fuel t : ℕ) (s : State) (key : ℕ) (remove : Bool) : Except Fault (State × ℕ) := do
  let v ← s.load t
  let n := v.tnode 0
  if n = 0 then .ok (s, 0)
  else do
    let w ← s.load n
    if w.bits = 0 then
      if w.key = key then
        if remove then .ok (s.store t { v with tnode := Function.update v.tnode 0 0 }, n) else .ok (s, n)
      else .ok (s, 0)
    else findLeafLoop key remove fuel s n

/-- The answers of `kmalloc` to one insertion: the leaf, the inner node, and what is there. -/
structure Chunks where
  l : ℕ
  leafJunk : Node
  tn : ℕ
  tnodeJunk : Node

/-- `b32t_insert_node`. -/
def insertNode (s : State) (c : Chunks) (tp new key : ℕ) : Except Fault State := do
  let s := leafNew s c.l c.leafJunk key new
  let v ← s.load tp
  let n := v.tnode (getIndex key v)
  let (s, tp) ←
    if n ≠ 0 then do
      let w ← s.load n
      let pos ← fls (key ^^^ w.key)
      let s ← tnodeNew s c.tn c.tnodeJunk key pos 1
      let s ← s.nodeInitParent c.tn tp
      let u ← s.load c.tn
      let s ← putChildIndex s c.tn (getIndex key u ^^^ 1) n
      let s ← putChildKey s tp key c.tn
      let s ← s.nodeSetParent n c.tn
      .ok (s, c.tn)
    else .ok (s, tp)
  let s ← s.nodeInitParent c.l tp
  putChildKey s tp key c.l

/-- `b32t_leaf_insert`: a key that is there is only reported. -/
def leafInsert (fuel t : ℕ) (s : State) (c : Chunks) (key new : ℕ) : Except Fault State := do
  let (_, tp) ← findNode fuel t s key
  insertNode s c tp new key

/-- `b32t_flush_parent`. -/
def flushParent (t : ℕ) : ℕ → State → ℕ → Except Fault State
  | 0, _, _ => .error .fuel
  | fuel + 1, s, n =>
    if n = 0 then .ok s
    else do
      let v ← s.load n
      if (List.range (childLength v)).any fun index => v.tnode index ≠ 0 then .ok s
      else do
        let s := { s with outside := s.outside || decide (n = t) }
        let tn := v.parent
        if tn = 0 then .ok s
        else do
          let w ← s.load tn
          let s ← s.nodeFree n
          let s ← putChildIndex s tn (getCindex v.key w) 0
          flushParent t fuel s tn

/-- `b32t_leaf_delete`: the entries of the leaf are freed with it. -/
def leafDelete (fuel t : ℕ) (s : State) (key : ℕ) : Except Fault State := do
  let (s, l) ← findLeaf fuel t s key true
  if l = 0 then .ok s
  else do
    let v ← s.load l
    let s ← s.nodeFree l
    flushParent t fuel s v.parent

end HardStack.LcTrie.Model
