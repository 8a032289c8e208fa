import HardStack.Lib.Word
import HardStack.Rbtree.Model

/-! # The area set of `Memory-Allocator/vmalloc/vmalloc_userspace`

`mm/vmalloc.c`: the vmap areas, kept in the red-black tree `vmap_area_root` and in the list
`vmap_area_list`, and the cache that the search for a hole starts from. A `struct vmap_area *` is
the address of its `rb_node` (`container_of` is a bijection), so one number names the area in both.
`unsigned long` has `W` bits. Loops take fuel, and `none` means that a call does not return: the fuel
ran out or a `BUG()` was hit. -/

namespace HardStack.Vmalloc.Model

open HardStack.Lib.Word HardStack.Lib.RbTree HardStack.Rbtree.Model

/-- The globals of `vmalloc.c` and the fields of the areas. -/
structure Vm where
  rb : State Unit
  list : List ℕ
  vaStart : ℕ → ℕ
  vaEnd : ℕ → ℕ
  flags : ℕ → ℕ
  freeVmapCache : ℕ
  cachedHoleSize : ℕ
  cachedVstart : ℕ
  cachedAlign : ℕ

/-! ### `__find_vmap_area` -/

def findLoop (σ : Vm) (addr : ℕ) : ℕ → ℕ → Option ℕ
  | 0, _ => none
  | k + 1, n =>
    if n = 0 then some 0
    else if addr < σ.vaStart n then findLoop σ addr k (σ.rb.child .left n)
    else if addr ≥ σ.vaEnd n then findLoop σ addr k (σ.rb.child .right n)
    else some n

def findVmapArea (fuel : ℕ) (σ : Vm) (addr : ℕ) : Option ℕ := findLoop σ addr fuel σ.rb.root

/-! ### `__insert_vmap_area` -/

/-- The descent to the empty position where the area is linked. -/
def insertLoop (σ : Vm) (va : ℕ) : ℕ → (p : ℕ) → Link → Option Link
  | 0, _, _ => none
  | k + 1, p, link =>
    if p = 0 then some link
    else if σ.vaStart va < σ.vaEnd p then
      insertLoop σ va k (σ.rb.child .left p) (.child .left p)
    else if σ.vaEnd va > σ.vaStart p then
      insertLoop σ va k (σ.rb.child .right p) (.child .right p)
    else none

/-- `list_add(&va->list, &prev->list)`. -/
def listAddAfter (va prev : ℕ) : List ℕ → List ℕ
  | [] => []
  | x :: L => if x = prev then x :: va :: L else x :: listAddAfter va prev L

def insertVmapArea (fuel : ℕ) (σ : Vm) (va : ℕ) : Option Vm := do
  let link ← insertLoop σ va fuel σ.rb.root .root
  let rb ← rbInsertColor fuel (rbLinkNode σ.rb va link) va
  let tmp ← rbPrev fuel rb va
  let list := if tmp ≠ 0 then listAddAfter va tmp σ.list else va :: σ.list
  some { σ with rb := rb, list := list }

/-! ### `alloc_vmap_area` -/

variable (W : ℕ)

/-- `a + b` on `unsigned long`. -/
def addW (a b : ℕ) : ℕ := (a + b) % 2 ^ W

/-- The descent for the lowest area that ends at or above `addr`. -/
def searchFirst (σ : Vm) (addr : ℕ) : ℕ → (n first : ℕ) → Option ℕ
  | 0, _, _ => none
  | k + 1, n, first =>
    if n = 0 then some first
    else if σ.vaEnd n ≥ addr then
      if σ.vaStart n ≤ addr then some n
      else searchFirst σ addr k (σ.rb.child .left n) n
    else searchFirst σ addr k (σ.rb.child .right n) first

/-- The walk from `first` on along the list; `none` for `goto overflow`. -/
def walk (size align vend : ℕ) : List ℕ → Vm → ℕ → Vm × Option ℕ
  | [], σ, addr => (σ, some addr)
  | first :: rest, σ, addr =>
    if addW W addr size > σ.vaStart first ∧ addW W addr size ≤ vend then
      let σ := if addW W addr σ.cachedHoleSize < σ.vaStart first then
          { σ with cachedHoleSize := (σ.vaStart first + 2 ^ W - addr) % 2 ^ W } else σ
      let addr := alignUp W (σ.vaEnd first) align
      if addW W addr size < addr then (σ, none)
      -- `list_is_last` leaves the loop through the empty list
      else walk size align vend rest σ addr
    else (σ, some addr)

/-- From `nocache` to `found` or `overflow`, without the cache. -/
def searchNocache (fuel : ℕ) (σ : Vm) (size align vstart vend : ℕ) : Option (Vm × Option ℕ) := do
  let σ := { σ with
    cachedHoleSize := 0, freeVmapCache := 0, cachedVstart := vstart, cachedAlign := align }
  let addr := alignUp W vstart align
  if addW W addr size < addr then some (σ, none)
  else
    let first ← searchFirst σ addr fuel σ.rb.root 0
    if first = 0 then some (σ, some addr)
    else some (walk W size align vend (σ.list.dropWhile (· ≠ first)) σ addr)

/-- From `retry` to `found` or `overflow`. -/
def searchHole (fuel : ℕ) (σ : Vm) (size align vstart vend : ℕ) : Option (Vm × Option ℕ) :=
  if σ.freeVmapCache = 0 ∨ size < σ.cachedHoleSize ∨ vstart < σ.cachedVstart ∨
      align < σ.cachedAlign then
    searchNocache W fuel σ size align vstart vend
  else
    let σ := { σ with cachedVstart := vstart, cachedAlign := align }
    let first := σ.freeVmapCache
    let addr := alignUp W (σ.vaEnd first) align
    if addr < vstart then searchNocache W fuel σ size align vstart vend
    else if addW W addr size < addr then some (σ, none)
    else some (walk W size align vend (σ.list.dropWhile (· ≠ first)) σ addr)

/-- The code from `retry` on. `purged` is never set, so `overflow` always goes back to `retry`. -/
def allocLoop (fuel : ℕ) (va size align vstart vend : ℕ) : ℕ → Vm → Option Vm
  | 0, _ => none
  | k + 1, σ => do
    let (σ, found) ← searchHole W fuel σ size align vstart vend
    match found with
    | none => allocLoop fuel va size align vstart vend k σ
    | some addr =>
      if addW W addr size > vend then allocLoop fuel va size align vstart vend k σ
      else
        let σ := { σ with
          vaStart := Function.update σ.vaStart va addr
          vaEnd := Function.update σ.vaEnd va (addW W addr size)
          flags := Function.update σ.flags va 0 }
        let σ ← insertVmapArea fuel σ va
        some { σ with freeVmapCache := va }

/-- `alloc_vmap_area`, where `va` is what `kmalloc_node` returned. The area, or `none` for
`ERR_PTR(-ENOMEM)`. -/
def allocVmapArea (fuel : ℕ) (σ : Vm) (va size align vstart vend : ℕ) : Option (Vm × Option ℕ) :=
  if va = 0 then some (σ, none)
  else do
    let σ ← allocLoop W fuel va size align vstart vend fuel σ
    some (σ, some va)

/-! ### `__free_vmap_area` -/

/-- The update of `free_vmap_cache` in `__free_vmap_area`. -/
def freeCache (fuel : ℕ) (σ : Vm) (va : ℕ) : Option ℕ :=
  if σ.freeVmapCache = 0 then some 0
  else if σ.vaEnd va < σ.cachedVstart then some 0
  else if σ.vaStart va ≤ σ.vaStart σ.freeVmapCache then rbPrev fuel σ.rb va
  else some σ.freeVmapCache

def freeVmapArea (fuel : ℕ) (σ : Vm) (va : ℕ) : Option Vm :=
  if σ.rb.parentColor va = va then none
  else do
    let cache ← freeCache fuel σ va
    let rb ← rbErase fuel σ.rb va
    some { σ with rb := rb.setPc va va, list := σ.list.erase va, freeVmapCache := cache }

end HardStack.Vmalloc.Model
