import HardStack.BinaryTree.Model

/-! # What the reader and the measures compute

The reader gives back every tree from its listing. The depth that is measured is that of the leftmost
path, and the leaves of all trees that have been measured before are counted along. -/

namespace HardStack.BinaryTree.Measures

open HardStack.BinaryTree.Model

variable {data : List ℤ} {counter fuel count : ℕ} {tree : Node} {calls : List Call}

namespace Node

/-- The preorder listing, with `-1` for a missing child. -/
def listing : Node → List ℤ
  | .nil => [-1]
  | .node idx left right => idx :: (listing left ++ listing right)

/-- No node has the value `-1`. -/
def Valid : Node → Prop
  | .nil => True
  | .node idx left right => idx ≠ -1 ∧ Valid left ∧ Valid right

def height : Node → ℕ
  | .nil => 0
  | .node _ left right => max (height left) (height right) + 1

def leaves : Node → ℕ
  | .nil => 0
  | .node _ left right => if left = .nil ∧ right = .nil then 1 else leaves left + leaves right

/-- The nodes of the leftmost path. -/
def leftDepth : Node → ℕ
  | .nil => 0
  | .node _ left _ => leftDepth left + 1

end Node

open Node

/-! ### The reader -/

/-- **The reader** gives the tree of a listing and consumes just the listing. -/
theorem preorderCreate_spec : ∀ (tree : Node) {fuel counter : ℕ} {rest : List ℤ}, Valid tree →
    height tree < fuel → data.drop counter = listing tree ++ rest →
    preorderCreate data fuel counter = some (tree, counter + (listing tree).length) ∧
      data.drop (counter + (listing tree).length) = rest
  | .nil, fuel + 1, counter, rest, _, _, hdata => by
    have hget : data[counter]? = some (-1) := by
      rw [← List.head?_drop, hdata]
      rfl
    constructor
    · rw [preorderCreate, hget]
      rfl
    · rw [← List.drop_drop, hdata]
      rfl
  | .node idx left right, fuel + 1, counter, rest, ⟨hidx, hleft, hright⟩, hfuel, hdata => by
    unfold height at hfuel
    unfold listing at hdata
    have hget : data[counter]? = some idx := by
      rw [← List.head?_drop, hdata]
      rfl
    have hnext : data.drop (counter + 1) = listing left ++ (listing right ++ rest) := by
      rw [← List.drop_drop, hdata, List.cons_append, List.drop_one, List.tail_cons, List.append_assoc]
    obtain ⟨hrunl, hdatal⟩ := preorderCreate_spec left hleft (show height left < fuel by omega) hnext
    obtain ⟨hrunr, hdatar⟩ := preorderCreate_spec right hright (show height right < fuel by omega) hdatal
    have hend : counter + (listing (.node idx left right)).length =
        counter + 1 + (listing left).length + (listing right).length := by
      rw [listing, List.length_cons, List.length_append]
      omega
    rw [hend]
    refine ⟨?_, hdatar⟩
    rw [preorderCreate, hget]
    show (if idx = -1 then some (Node.nil, counter + 1) else _) = _
    rw [if_neg hidx, hrunl]
    show (preorderCreate data fuel (counter + 1 + (listing left).length)).bind _ = _
    rw [hrunr]
    rfl

/-- A tree is rebuilt from its listing wherever that stands. -/
def Rebuilt (tree : Node) : Prop :=
  ∃ enough, ∀ fuel ≥ enough, ∀ before after : List ℤ,
    preorderCreate (before ++ listing tree ++ after) fuel before.length =
      some (tree, before.length + (listing tree).length)

theorem rebuilt (h : Valid tree) : Rebuilt tree :=
  ⟨height tree + 1, fun _ hfuel before after => (preorderCreate_spec tree h hfuel (by
    rw [List.append_assoc, List.drop_left])).1⟩

/-! ### The measures -/

theorem deep_eq : ∀ tree : Node, deep tree = leftDepth tree
  | .nil => rfl
  | .node _ left right => by
    rw [deep, leftDepth, deep_eq left]
    exact ite_self _

theorem leaves_eq_zero_iff : ∀ {tree : Node}, leaves tree = 0 ↔ tree = .nil
  | .nil => iff_of_true rfl rfl
  | .node idx left right => by
    refine iff_of_false (fun h => ?_) (by simp)
    unfold leaves at h
    by_cases hleaf : left = .nil ∧ right = .nil
    · rw [if_pos hleaf] at h
      exact absurd h one_ne_zero
    · rw [if_neg hleaf, Nat.add_eq_zero_iff, leaves_eq_zero_iff, leaves_eq_zero_iff] at h
      exact hleaf h

/-- **The leaf counter** goes on from where it stands. -/
theorem leafCount_eq : ∀ (tree : Node) (count : ℕ), leafCount tree count = count + leaves tree
  | .nil, _ => rfl
  | .node _ left right, count => by
    rw [leafCount, leafCount_eq right, leafCount_eq left, leaves]
    by_cases hleaf : left = .nil ∧ right = .nil
    · rw [if_pos hleaf, if_pos hleaf, hleaf.1, hleaf.2]
      rfl
    · rw [if_neg hleaf, if_neg hleaf, Nat.add_assoc]

/-- The calls give the height and the number of leaves; `count` is the `static` counter before them. -/
def AllRight : List Call → ℕ → Prop
  | [], _ => True
  | .deep tree :: calls, count => deep tree = height tree ∧ AllRight calls count
  | .leafCount tree :: calls, count =>
    leafCount tree count = leaves tree ∧ AllRight calls (leafCount tree count)

/-- The trees whose leaves are counted. -/
def counted : List Call → List Node
  | [] => []
  | .deep _ :: calls => counted calls
  | .leafCount tree :: calls => tree :: counted calls

/-- The leftmost path of each tree whose depth is measured is as long as the tree is high, and no leaf
is counted before the last count. -/
def Benign (calls : List Call) : Prop :=
  (∀ tree, .deep tree ∈ calls → leftDepth tree = height tree) ∧
    (counted calls).Pairwise fun earlier _ => earlier = .nil

theorem allRight_iff : ∀ (calls : List Call) (count : ℕ),
    AllRight calls count ↔ Benign calls ∧ (count = 0 ∨ counted calls = [])
  | [], count => iff_of_true trivial ⟨⟨fun _ h => absurd h List.not_mem_nil, List.Pairwise.nil⟩, Or.inr rfl⟩
  | .deep tree :: calls, count => by
    unfold AllRight
    rw [deep_eq, allRight_iff calls count]
    unfold Benign
    constructor
    · rintro ⟨hdeep, ⟨hall, hpairs⟩, hcount⟩
      refine ⟨⟨fun t ht => ?_, hpairs⟩, hcount⟩
      rcases List.mem_cons.mp ht with heq | ht
      · cases heq
        exact hdeep
      · exact hall t ht
    · rintro ⟨⟨hall, hpairs⟩, hcount⟩
      exact ⟨hall tree List.mem_cons_self, ⟨fun t ht => hall t (List.mem_cons_of_mem _ ht), hpairs⟩, hcount⟩
  | .leafCount tree :: calls, count => by
    unfold AllRight
    rw [leafCount_eq, allRight_iff calls _]
    rw [Benign, Benign, counted, List.pairwise_cons]
    have hmem : ∀ t, .deep t ∈ Call.leafCount tree :: calls ↔ .deep t ∈ calls := by
      intro t
      rw [List.mem_cons]
      exact or_iff_right (by simp)
    simp only [hmem]
    constructor
    · rintro ⟨hleaf, ⟨hall, hpairs⟩, hcount⟩
      have h0 : count = 0 := by omega
      refine ⟨⟨hall, fun t ht => ?_, hpairs⟩, Or.inl h0⟩
      rcases hcount with hcount | hnone
      · exact leaves_eq_zero_iff.mp (by omega)
      · rw [hnone] at ht
        cases ht
    · rintro ⟨⟨hall, hfirst, hpairs⟩, hcount⟩
      have h0 : count = 0 := by
        rcases hcount with h | h
        · exact h
        · cases h
      refine ⟨by omega, ⟨hall, hpairs⟩, ?_⟩
      rcases hc : counted calls with _ | ⟨t, later⟩
      · exact Or.inr rfl
      · rw [h0, hfirst t (by rw [hc]; exact List.mem_cons_self)]
        exact Or.inl rfl

/-- **The measures are right** exactly for benign calls; the trees are always rebuilt. -/
theorem measured_iff (hvalid : ∀ call ∈ calls, Valid call.tree) :
    (∀ call ∈ calls, Rebuilt call.tree) ∧ AllRight calls 0 ↔ Benign calls := by
  rw [allRight_iff]
  exact ⟨fun h => h.2.1, fun h => ⟨fun call hcall => rebuilt (hvalid call hcall), h, Or.inl rfl⟩⟩

def chain : Node := .node 1 .nil (.node 2 .nil .nil)

theorem measured_iff_chain : (∀ call ∈ [Call.leafCount chain], Valid call.tree) ∧
    ((∀ call ∈ [Call.leafCount chain], Rebuilt call.tree) ∧ AllRight [.leafCount chain] 0 ↔
      Benign [.leafCount chain]) := by
  have hvalid : ∀ call ∈ [Call.leafCount chain], Valid call.tree := by
    intro call hcall
    rw [List.mem_singleton.mp hcall]
    exact ⟨by decide, trivial, by decide, trivial, trivial⟩
  exact ⟨hvalid, measured_iff hvalid⟩

/-- Two nodes of which the second is the right child of the first: the depth is two, and one is
measured. A second count of the leaf gives two. -/
theorem not_right_chain : ¬ AllRight [.deep chain] 0 ∧
    ¬ AllRight [.leafCount chain, .leafCount chain] 0 := by
  constructor
  · rintro ⟨hdeep, -⟩
    exact absurd hdeep (by decide)
  · rintro ⟨-, hcount, -⟩
    exact absurd hcount (by decide)

end HardStack.BinaryTree.Measures
