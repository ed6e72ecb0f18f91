import SourceLibs.Support.RedBlackRepair

/-!
# SGI STL — the red-black tree

`stl_tree.h`: the functions on the nodes of a tree, without the values.  A pointer is a number or null,
and following a null pointer ends the run.  `__root`, `__leftmost` and `__rightmost` are references to
the parent and child links of the header.  The functions that have a left and a right version are one
function of a side; loops take fuel.

* `insert`: `_M_insert` with `_Rb_tree_rebalance`.
* `rebalanceForErase`: `_Rb_tree_rebalance_for_erase`.
* `increment`, `decrement`: the steps of the iterator.
-/

namespace SourceLibs.SgiStl

open RedBlackTree

/-! ### Links -/

/-- `_S_minimum` for the left side, `_S_maximum` for the right one. -/
def extreme (s : Side) : ℕ → Mem ℕ → ℕ → Option ℕ
  | 0,        _, _ => none
  | fuel + 1, m, x =>
    match m.child s x with
    | none   => some x
    | some y => extreme s fuel m y

def minimum : ℕ → Mem ℕ → ℕ → Option ℕ := extreme .left

def maximum : ℕ → Mem ℕ → ℕ → Option ℕ := extreme .right

/-- `q` takes the place of `x` below its parent, where the side `s` is looked at first. -/
def replace (s : Side) (h : ℕ) (m : Mem ℕ) (x : ℕ) (q : Option ℕ) : Option (Mem ℕ) :=
  if m.parent h = some x then some (m.setParent h q)
  else do
    let p ← m.parent x
    if m.child s p = some x then some (m.setChild p s q) else some (m.setChild p s.flip q)

/-- `_Rb_tree_rotate_left` for the left side, `_Rb_tree_rotate_right` for the right one. -/
def rotate (s : Side) (h : ℕ) (m : Mem ℕ) (x : ℕ) : Option (Mem ℕ) := do
  let y ← m.child s.flip x
  let m := m.setChild x s.flip (m.child s y)
  let m := m.setParent? (m.child s y) (some x)
  let m := m.setParent y (m.parent x)
  let m ← replace s h m x (some y)
  let m := m.setChild y s (some x)
  some (m.setParent x (some y))

def rotateLeft : ℕ → Mem ℕ → ℕ → Option (Mem ℕ) := rotate .left

def rotateRight : ℕ → Mem ℕ → ℕ → Option (Mem ℕ) := rotate .right

/-! ### Insertion -/

/-- The end of the body of the loop of `_Rb_tree_rebalance`: the parent of `x` goes above the
grandparent. -/
def raiseParent (s : Side) (h : ℕ) (m : Mem ℕ) (x : ℕ) : Option (Mem ℕ × ℕ) := do
  let p ← m.parent x
  let m := m.setColor p .black
  let g ← m.parent p
  let m := m.setColor g .red
  let m ← rotate s.flip h m g
  some (m, x)

/-- The body of the loop of `_Rb_tree_rebalance` when the parent `p` of `x` is red and on the side `s`
of its parent `g`, and the node to go on with. -/
def rebalanceStep (s : Side) (h : ℕ) (m : Mem ℕ) (x p g : ℕ) : Option (Mem ℕ × ℕ) := do
  let y := m.child s.flip g
  if isBlack m y = false then
    let m := m.setColor p .black
    let m := m.setColor? y .black
    let m := m.setColor g .red
    some (m, g)
  else if m.child s.flip p = some x then
    let m ← rotate s h m p
    raiseParent s h m p
  else raiseParent s h m x

/-- The loop of `_Rb_tree_rebalance`. -/
def rebalanceLoop (h : ℕ) : ℕ → Mem ℕ → ℕ → Option (Mem ℕ)
  | 0,        _, _ => none
  | fuel + 1, m, x =>
    if m.parent h = some x then some m
    else do
      let p ← m.parent x
      if m.color p = .red then
        let g ← m.parent p
        let s := if m.child .left g = some p then Side.left else .right
        let (m, x) ← rebalanceStep s h m x p g
        rebalanceLoop h fuel m x
      else some m

/-- `_Rb_tree_rebalance` -/
def rebalance (fuel h : ℕ) (m : Mem ℕ) (x : ℕ) : Option (Mem ℕ) := do
  let m := m.setColor x .red
  let m ← rebalanceLoop h fuel m x
  let root ← m.parent h
  some (m.setColor root .black)

/-- `_M_empty_initialize` -/
def emptyInitialize (m : Mem ℕ) (h : ℕ) : Mem ℕ :=
  (((m.setColor h .red).setParent h none).setChild h .left (some h)).setChild h .right (some h)

/-- `z` becomes the child of `y` on the side `s`, and the end of the tree there if `y` was. -/
def linkChild (s : Side) (h : ℕ) (m : Mem ℕ) (y z : ℕ) : Mem ℕ :=
  let m := m.setChild y s (some z)
  if m.child s h = some y then m.setChild h s (some z) else m

/-- `_M_insert` of the new node `z`, where `less` says that its key is less than that of `y`. -/
def insert (fuel h : ℕ) (m : Mem ℕ) (x : Option ℕ) (y z : ℕ) (less : Bool) : Option (Mem ℕ) :=
  let m :=
    if y = h ∨ x ≠ none ∨ less = true then
      if y = h then ((m.setChild y .left (some z)).setParent h (some z)).setChild h .right (some z)
      else linkChild .left h m y z
    else linkChild .right h m y z
  let m := m.setParent z (some y)
  let m := m.setChild z .left none
  let m := m.setChild z .right none
  rebalance fuel h m z

/-! ### Removal -/

/-- The body of the loop of `_Rb_tree_rebalance_for_erase` when `x` is on the side `s` of `xp`, and the
nodes to go on with unless the loop is left. -/
def eraseStep (s : Side) (h : ℕ) (m : Mem ℕ) (xp : ℕ) : Option (Mem ℕ × Option (ℕ × Option ℕ)) := do
  let w ← m.child s.flip xp
  let (m, w) ← if m.color w = .red then do
      let m := m.setColor w .black
      let m := m.setColor xp .red
      let m ← rotate s h m xp
      let w ← m.child s.flip xp
      some (m, w)
    else some (m, w)
  if isBlack m (m.child s w) ∧ isBlack m (m.child s.flip w) then
    let m := m.setColor w .red
    some (m, some (xp, m.parent xp))
  else
    let (m, w) ← if isBlack m (m.child s.flip w) then do
        let m := m.setColor? (m.child s w) .black
        let m := m.setColor w .red
        let m ← rotate s.flip h m w
        let w ← m.child s.flip xp
        some (m, w)
      else some (m, w)
    let m := m.setColor w (m.color xp)
    let m := m.setColor xp .black
    let m := m.setColor? (m.child s.flip w) .black
    let m ← rotate s h m xp
    some (m, none)

/-- The loop of `_Rb_tree_rebalance_for_erase`, and the node it ends at. -/
def eraseLoop (h : ℕ) : ℕ → Mem ℕ → Option ℕ → Option ℕ → Option (Mem ℕ × Option ℕ)
  | 0,        _, _, _  => none
  | fuel + 1, m, x, xp =>
    if x ≠ m.parent h ∧ isBlack m x then do
      let xp ← xp
      let s := if x = m.child .left xp then Side.left else .right
      let (m, next) ← eraseStep s h m xp
      match next with
      | none         => some (m, x)
      | some (x, xp) => eraseLoop h fuel m (some x) xp
    else some (m, x)

/-- A node leaves the end of the tree on the side `s`: the header's link goes to the next one. -/
def updateEnd (s : Side) (fuel h : ℕ) (m : Mem ℕ) (z : ℕ) (x : Option ℕ) : Option (Mem ℕ) :=
  if m.child s h = some z then
    if m.child s.flip z = none then some (m.setChild h s (m.parent z))
    else do
      let x ← x
      let e ← extreme s fuel m x
      some (m.setChild h s (some e))
  else some m

/-- The node `y` that is taken from its place when `z` goes, and its child: `z` itself, or its successor
when `z` has two children. -/
def target (fuel : ℕ) (m : Mem ℕ) (z : ℕ) : Option (ℕ × Option ℕ) :=
  match m.child .left z, m.child .right z with
  | none,   x      => some (z, x)
  | some x, none   => some (z, some x)
  | some _, some r => do
    let y ← minimum fuel m r
    some (y, m.child .right y)

/-- The successor `y` of `z` leaves its place to its child `x`, unless it is the child of `z`; and the
parent of `x` then. -/
def detach (m : Mem ℕ) (z y : ℕ) (x : Option ℕ) : Option (Mem ℕ × Option ℕ) :=
  if m.child .right z ≠ some y then do
    let xp := m.parent y
    let m := m.setParent? x (m.parent y)
    let p ← m.parent y
    let m := m.setChild p .left x
    let m := m.setChild y .right (m.child .right z)
    let zr ← m.child .right z
    some (m.setParent zr (some y), xp)
  else some (m, some y)

/-- `z` has two children: its successor `y`, with the child `x`, takes its place and its colour. -/
def relink (h : ℕ) (m : Mem ℕ) (z y : ℕ) (x : Option ℕ) : Option (Mem ℕ × Option ℕ) := do
  let zl ← m.child .left z
  let m := m.setParent zl (some y)
  let m := m.setChild y .left (m.child .left z)
  let (m, xp) ← detach m z y x
  let m ← replace .left h m z (some y)
  let m := m.setParent y (m.parent z)
  some ((m.setColor y (m.color z)).setColor z (m.color y), xp)

/-- `z` has at most one child `x`, which takes its place. -/
def unlinkSelf (fuel h : ℕ) (m : Mem ℕ) (z : ℕ) (x : Option ℕ) : Option (Mem ℕ × Option ℕ) := do
  let xp := m.parent z
  let m := m.setParent? x (m.parent z)
  let m ← replace .left h m z x
  let m ← updateEnd .left fuel h m z x
  let m ← updateEnd .right fuel h m z x
  some (m, xp)

/-- `z` is taken out of the tree: the changed memory, the child `x` of the node taken from its place,
and its parent. -/
def unlink (fuel h : ℕ) (m : Mem ℕ) (z : ℕ) : Option (Mem ℕ × Option ℕ × Option ℕ) := do
  let (y, x) ← target fuel m z
  let (m, xp) ← if y ≠ z then relink h m z y x else unlinkSelf fuel h m z x
  some (m, x, xp)

/-- `_Rb_tree_rebalance_for_erase`; the node it returns is `z`. -/
def rebalanceForErase (fuel h : ℕ) (m : Mem ℕ) (z : ℕ) : Option (Mem ℕ) := do
  let (m, x, xp) ← unlink fuel h m z
  if m.color z ≠ .red then
    let (m, x) ← eraseLoop h fuel m x xp
    some (m.setColor? x .black)
  else some m

/-! ### Iterators -/

/-- The way up in `_M_increment` (`s` the right side) and `_M_decrement` (the left one): from a node
and its parent to the first that is not on that side. -/
def climb (s : Side) : ℕ → Mem ℕ → ℕ → ℕ → Option (ℕ × ℕ)
  | 0,        _, _, _ => none
  | fuel + 1, m, x, y =>
    if m.child s y = some x then do
      let p ← m.parent y
      climb s fuel m y p
    else some (x, y)

/-- `_M_increment` -/
def increment (fuel : ℕ) (m : Mem ℕ) (x : ℕ) : Option ℕ :=
  match m.child .right x with
  | some r => minimum fuel m r
  | none   => do
    let y ← m.parent x
    let (x, y) ← climb .right fuel m x y
    if m.child .right x ≠ some y then some y else some x

/-- The test of `_M_decrement` for the header: a red node that is its own grandparent. -/
def isHeader (m : Mem ℕ) (x : ℕ) : Option Bool :=
  if m.color x = .red then do
    let p ← m.parent x
    some (m.parent p = some x)
  else some false

/-- `_M_decrement` -/
def decrement (fuel : ℕ) (m : Mem ℕ) (x : ℕ) : Option ℕ := do
  if ← isHeader m x then m.child .right x
  else
    match m.child .left x with
    | some l => maximum fuel m l
    | none   => do
      let y ← m.parent x
      let (_, y) ← climb .left fuel m x y
      some y

end SourceLibs.SgiStl
