import SourceLibs.Support.SpanList
import Mathlib.Order.Lattice
import Mathlib.Logic.Function.Basic

/-!
# Redis — the skip list of a sorted set

`zslInsert`, `zslDelete`, the deletions of a range, `zslGetRank` and `zslGetElementByRank`.

A node has an address.  A place in the list is the header (`none`) or a node.  A function that would read
where there is no node, or past the `level` array of one, returns nothing.  Scores and elements are of any
two linear orders; what `zmalloc` and `zslRandomLevel` return is given to an insertion.  The counts do not
overflow.
-/

namespace SourceLibs.RedisSkiplist
open SpanList

/-- The levels there may be. -/
def zskiplistMaxlevel : ℕ := 32

/-- `zskiplistNode`; its `level` array has `height` entries. -/
structure Node (σ α : Type*) where
  obj : α
  score : σ
  backward : Option ℕ
  height : ℕ

/-- `zskiplist`; `links x i` is `x->level[i]`. -/
structure ZSkipList (σ α : Type*) where
  nodes : ℕ → Option (Node σ α)
  links : Option ℕ → ℕ → Link ℕ
  tail : Option ℕ
  length : ℕ
  level : ℕ

variable {σ α : Type*}

/-- The number of entries of the `level` array. -/
def ZSkipList.height (zsl : ZSkipList σ α) : Option ℕ → ℕ
  | none => zskiplistMaxlevel
  | some p =>
    match zsl.nodes p with
    | none => 0
    | some n => n.height

/-- Read `x->level[i]`. -/
def ZSkipList.get (zsl : ZSkipList σ α) (x : Option ℕ) (i : ℕ) : Option (Link ℕ) :=
  if i < zsl.height x then some (zsl.links x i) else none

/-- Write `x->level[i]`. -/
def ZSkipList.set (zsl : ZSkipList σ α) (x : Option ℕ) (i : ℕ) (l : Link ℕ) :
    Option (ZSkipList σ α) :=
  if i < zsl.height x then
    some { zsl with links := fun y j => if j = i ∧ y = x then l else zsl.links y j }
  else none

/-- `zslCreate`: the header only. -/
def zslCreate : ZSkipList σ α := ⟨fun _ => none, fun _ _ => ⟨none, 0⟩, none, 0, 1⟩

/-! ### Going down -/

/-- Go forward on level `i` while `skip` says so; it is given the rank of the next node, too. -/
def walk (zsl : ZSkipList σ α) (skip : ℕ → Node σ α → Bool) (i : ℕ) :
    ℕ → Option ℕ → ℕ → Option (Option ℕ × ℕ)
  | 0, _, _ => none
  | fuel + 1, x, rank =>
    match zsl.get x i with
    | none => none
    | some l =>
      match l.forward with
      | none => some (x, rank)
      | some p =>
        match zsl.nodes p with
        | none => none
        | some n =>
          if skip (rank + l.span) n then walk zsl skip i fuel (some p) (rank + l.span)
          else some (x, rank)

/-- Down from level `i - 1`: `update` and `rank`. -/
def descend (zsl : ZSkipList σ α) (skip : ℕ → Node σ α → Bool) :
    ℕ → Option ℕ → ℕ → Option (List (Option ℕ × ℕ))
  | 0, _, _ => some []
  | i + 1, x, rank =>
    match walk zsl skip i (zsl.length + 1) x rank with
    | none => none
    | some (x, rank) =>
      match descend zsl skip i x rank with
      | none => none
      | some update => some (update ++ [(x, rank)])

/-- Down from level `i - 1` to the first level where `stop` holds. -/
def search (zsl : ZSkipList σ α) (skip : ℕ → Node σ α → Bool) (stop : Option ℕ → ℕ → Bool) :
    ℕ → Option ℕ → ℕ → Option (Option (Option ℕ × ℕ))
  | 0, _, _ => some none
  | i + 1, x, rank =>
    match walk zsl skip i (zsl.length + 1) x rank with
    | none => none
    | some (x, rank) => if stop x rank then some (some (x, rank)) else search zsl skip stop i x rank

/-- `update[0]->level[0].forward`. -/
def firstAfter (zsl : ZSkipList σ α) : List (Option ℕ × ℕ) → Option (Option ℕ)
  | [] => none
  | (x, _) :: _ => (zsl.get x 0).map Link.forward

/-- A loop over levels, from `i` on, with their `update` and `rank`. -/
def forLevels (body : ZSkipList σ α → ℕ → Option ℕ × ℕ → Option (ZSkipList σ α)) :
    ZSkipList σ α → ℕ → List (Option ℕ × ℕ) → Option (ZSkipList σ α)
  | zsl, _, [] => some zsl
  | zsl, i, u :: us =>
    match body zsl i u with
    | none => none
    | some zsl => forLevels body zsl (i + 1) us

/-! ### Inserting -/

/-- A new level of the header spans the whole list. -/
def openLevel (zsl : ZSkipList σ α) (i : ℕ) (u : Option ℕ × ℕ) : Option (ZSkipList σ α) :=
  match zsl.get u.1 i with
  | none => none
  | some l => zsl.set u.1 i ⟨l.forward, zsl.length⟩

/-- The new node `x` is linked after `update[i]`. -/
def linkLevel (x rank0 : ℕ) (zsl : ZSkipList σ α) (i : ℕ) (u : Option ℕ × ℕ) :
    Option (ZSkipList σ α) :=
  match zsl.get u.1 i with
  | none => none
  | some l =>
    match zsl.set (some x) i ⟨l.forward, l.span - (rank0 - u.2)⟩ with
    | none => none
    | some zsl => zsl.set u.1 i ⟨some x, rank0 - u.2 + 1⟩

/-- The span of an untouched level. -/
def widenLevel (zsl : ZSkipList σ α) (i : ℕ) (u : Option ℕ × ℕ) : Option (ZSkipList σ α) :=
  match zsl.get u.1 i with
  | none => none
  | some l => zsl.set u.1 i ⟨l.forward, l.span + 1⟩

/-- `p->backward = b`. -/
def ZSkipList.setBackward (zsl : ZSkipList σ α) (p : ℕ) (b : Option ℕ) : Option (ZSkipList σ α) :=
  match zsl.nodes p with
  | none => none
  | some n => some { zsl with nodes := Function.update zsl.nodes p (some { n with backward := b }) }

/-- The node after `x`, or the tail of the list, gets `b` for what is before it. -/
def setBefore (zsl : ZSkipList σ α) (x : ℕ) (b : Option ℕ) : Option (ZSkipList σ α) :=
  match zsl.get (some x) 0 with
  | none => none
  | some l =>
    match l.forward with
    | some q => zsl.setBackward q b
    | none => some { zsl with tail := b }

/-- `zslCreateNode`, at an address that is not in use. -/
def zslCreateNode (zsl : ZSkipList σ α) (addr level : ℕ) (score : σ) (obj : α) :
    Option (ZSkipList σ α) :=
  match zsl.nodes addr with
  | some _ => none
  | none =>
    some { zsl with nodes := Function.update zsl.nodes addr (some ⟨obj, score, none, level⟩) }

section Order
variable [LinearOrder σ] [LinearOrder α]

/-- A node comes before an element with a score. -/
def Node.before (n : Node σ α) (score : σ) (obj : α) : Bool :=
  decide (n.score < score ∨ (n.score = score ∧ n.obj < obj))

/-- `zslInsert`, with the level that `zslRandomLevel` returns and a new address. -/
def zslInsert (zsl : ZSkipList σ α) (score : σ) (obj : α) (level addr : ℕ) :
    Option (ZSkipList σ α) :=
  match descend zsl (fun _ n => n.before score obj) zsl.level none 0 with
  | none => none
  | some update =>
    let opened : List (Option ℕ × ℕ) := List.replicate (level - zsl.level) (none, 0)
    let update := update ++ opened
    match forLevels openLevel zsl zsl.level opened with
    | none => none
    | some zsl =>
      let zsl := { zsl with level := max zsl.level level }
      match zslCreateNode zsl addr level score obj, update.head? with
      | some zsl, some (u0, rank0) =>
        match forLevels (linkLevel addr rank0) zsl 0 (update.take level) with
        | none => none
        | some zsl =>
          match forLevels widenLevel zsl level (update.drop level) with
          | none => none
          | some zsl =>
            match zsl.setBackward addr u0 with
            | none => none
            | some zsl =>
              (setBefore zsl addr (some addr)).map fun zsl =>
                { zsl with length := zsl.length + 1 }
      | _, _ => none

end Order

/-! ### Deleting -/

/-- `x` is unlinked from level `i`. -/
def unlinkLevel (x : ℕ) (zsl : ZSkipList σ α) (i : ℕ) (u : Option ℕ × ℕ) :
    Option (ZSkipList σ α) :=
  match zsl.get u.1 i with
  | none => none
  | some l =>
    if l.forward = some x then
      match zsl.get (some x) i with
      | none => none
      | some lx => zsl.set u.1 i ⟨lx.forward, l.span + lx.span - 1⟩
    else zsl.set u.1 i ⟨l.forward, l.span - 1⟩

/-- The levels that no node has any more are given up. -/
def lowerLevel (links : Option ℕ → ℕ → Link ℕ) : ℕ → ℕ
  | 0 => 0
  | level + 1 =>
    if level + 1 > 1 ∧ (links none level).forward = none then lowerLevel links level
    else level + 1

/-- `zslDeleteNode`: the node is unlinked from all its levels. -/
def zslDeleteNode (zsl : ZSkipList σ α) (x : ℕ) (update : List (Option ℕ × ℕ)) :
    Option (ZSkipList σ α) :=
  if update.length < zsl.level then none
  else
    match forLevels (unlinkLevel x) zsl 0 (update.take zsl.level), zsl.nodes x with
    | some zsl, some n =>
      (setBefore zsl x n.backward).map fun zsl =>
        { zsl with
          level := lowerLevel zsl.links zsl.level
          length := zsl.length - 1 }
    | _, _ => none

def zslFreeNode (zsl : ZSkipList σ α) (x : ℕ) : ZSkipList σ α :=
  { zsl with nodes := Function.update zsl.nodes x none }

/-- Delete nodes from `x` on while `cond` says so; it is given a running number, too. -/
def deleteWhile (cond : ℕ → Node σ α → Bool) (update : List (Option ℕ × ℕ)) :
    ℕ → ZSkipList σ α → Option ℕ → ℕ → Option (ZSkipList σ α × ℕ)
  | 0, _, _, _ => none
  | _ + 1, zsl, none, _ => some (zsl, 0)
  | fuel + 1, zsl, some x, traversed =>
    match zsl.nodes x with
    | none => none
    | some n =>
      if cond traversed n then
        match zsl.get (some x) 0, zslDeleteNode zsl x update with
        | some l, some zsl =>
          (deleteWhile cond update fuel (zslFreeNode zsl x) l.forward (traversed + 1)).map
            fun (zsl, removed) => (zsl, removed + 1)
        | _, _ => none
      else some (zsl, 0)

/-- The deletions of a range: go down, and delete from there on. -/
def deleteRange (zsl : ZSkipList σ α) (skip cond : ℕ → Node σ α → Bool) :
    Option (ZSkipList σ α × ℕ) :=
  match descend zsl skip zsl.level none 0 with
  | none => none
  | some update =>
    match firstAfter zsl update with
    | none => none
    | some x =>
      deleteWhile cond update (zsl.length + 1) zsl x ((update.headD (none, 0)).2 + 1)

/-- `zslDeleteRangeByRank`, counted from one. -/
def zslDeleteRangeByRank (zsl : ZSkipList σ α) (start last : ℕ) : Option (ZSkipList σ α × ℕ) :=
  deleteRange zsl (fun rank _ => rank < start) (fun traversed _ => traversed ≤ last)

/-- A range of scores. -/
structure ZRangeSpec (σ : Type*) where
  min : σ
  max : σ
  minex : Bool
  maxex : Bool

/-- An end of a `zlexrangespec`: `shared.minstring`, `shared.maxstring`, or a string. -/
inductive LexEnd (α : Type*) where
  | minstring
  | maxstring
  | item (a : α)

/-- A range of elements. -/
structure ZLexRangeSpec (α : Type*) where
  min : LexEnd α
  max : LexEnd α
  minex : Bool
  maxex : Bool

section Order
variable [LinearOrder σ] [LinearOrder α]

/-- `zslDelete`: the node with this score and element, if there is one. -/
def zslDelete (zsl : ZSkipList σ α) (score : σ) (obj : α) : Option (ZSkipList σ α × Bool) :=
  match descend zsl (fun _ n => n.before score obj) zsl.level none 0 with
  | none => none
  | some update =>
    match firstAfter zsl update with
    | none => none
    | some none => some (zsl, false)
    | some (some x) =>
      match zsl.nodes x with
      | none => none
      | some n =>
        if score = n.score ∧ n.obj = obj then
          (zslDeleteNode zsl x update).map fun zsl => (zslFreeNode zsl x, true)
        else some (zsl, false)

def zslDeleteRangeByScore (zsl : ZSkipList σ α) (range : ZRangeSpec σ) :
    Option (ZSkipList σ α × ℕ) :=
  deleteRange zsl
    (fun _ n => if range.minex then decide (n.score ≤ range.min) else decide (n.score < range.min))
    (fun _ n => if range.maxex then decide (n.score < range.max) else decide (n.score ≤ range.max))

/-- `compareStringObjectsForLexRange` of an element and an end of a range. -/
def compareForLexRange (value : α) : LexEnd α → Ordering
  | .maxstring => .lt
  | .minstring => .gt
  | .item a => compare value a

/-- The lower end lets an element in. -/
def zslLexValueGteMin (value : α) (spec : ZLexRangeSpec α) : Bool :=
  if spec.minex then compareForLexRange value spec.min = .gt
  else compareForLexRange value spec.min ≠ .lt

/-- The upper end lets an element in. -/
def zslLexValueLteMax (value : α) (spec : ZLexRangeSpec α) : Bool :=
  if spec.maxex then compareForLexRange value spec.max = .lt
  else compareForLexRange value spec.max ≠ .gt

def zslDeleteRangeByLex (zsl : ZSkipList σ α) (range : ZLexRangeSpec α) :
    Option (ZSkipList σ α × ℕ) :=
  deleteRange zsl (fun _ n => !zslLexValueGteMin n.obj range)
    (fun _ n => zslLexValueLteMax n.obj range)

/-! ### Ranks -/

/-- `x->obj && equalStringObjects(x->obj,o)`. -/
def ZSkipList.hasObj (zsl : ZSkipList σ α) (obj : α) : Option ℕ → Bool
  | none => false
  | some p =>
    match zsl.nodes p with
    | none => false
    | some n => n.obj = obj

/-- `zslGetRank`; 0 if there is no such element. -/
def zslGetRank (zsl : ZSkipList σ α) (score : σ) (obj : α) : Option ℕ :=
  (search zsl (fun _ n => decide (n.score < score ∨ (n.score = score ∧ n.obj ≤ obj)))
    (fun x _ => zsl.hasObj obj x) zsl.level none 0).map fun found => (found.map Prod.snd).getD 0

end Order

/-- `zslGetElementByRank`; rank 0 is the header. -/
def zslGetElementByRank (zsl : ZSkipList σ α) (rank : ℕ) : Option (Option (Option ℕ)) :=
  (search zsl (fun traversed _ => traversed ≤ rank) (fun _ traversed => traversed == rank)
    zsl.level none 0).map fun found => found.map Prod.fst

end SourceLibs.RedisSkiplist
