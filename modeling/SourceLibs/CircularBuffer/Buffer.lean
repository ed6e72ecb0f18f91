import SourceLibs.CircularBuffer.Storage

/-!
# CircularBuffer — the class

`circular_buffer` with its iterators.  A null pointer, which is what `end()` holds, is `none`.
`push_back` and `push_front` read their item before they write, and so take its value; the other
operations that take one by reference read it where the source does.  The catch blocks are left out.

* `begin`, `next`, `plus`, `minus`, `diff`: the iterators, from `circular_buffer/details.hpp`.
* `pushBack`, …, `clear`: the operations that change the buffer.
* `elements`: what an iteration from `begin()` to `end()` reads.
-/

namespace SourceLibs

/-- `circular_buffer`: the cells from `m_buff` to `m_end`, `m_first`, `m_last` and `m_size`. -/
structure CircularBuffer (α : Type) where
  buff : List (Option α)
  first : ℕ
  last : ℕ
  size : ℕ
  deriving DecidableEq, Repr

end SourceLibs

namespace SourceLibs.CircularBuffer

variable {α : Type}

/-- The cells of the buffer. -/
def capacity (cb : CircularBuffer α) : ℕ := cb.buff.length

/-- No element. -/
def empty (cb : CircularBuffer α) : Bool := cb.size = 0

/-- No cell is free. -/
def full (cb : CircularBuffer α) : Bool := cb.capacity = cb.size

/-- The cells that are free. -/
def reserve (cb : CircularBuffer α) : ℕ := cb.capacity - cb.size

/-- `circular_buffer(buffer_capacity)`. -/
def ofCapacity (bufferCapacity : ℕ) : CircularBuffer α :=
  ⟨List.replicate bufferCapacity none, 0, 0, 0⟩

/-- `BOOST_CB_ASSERT`. -/
def cbAssert (p : Prop) [Decidable p] : Except Fault Unit :=
  if p then .ok () else .error .assertion

/-! ### Iterators -/

/-- The iterator of the first element; `none` is the null pointer of `end()`. -/
def begin (cb : CircularBuffer α) : Option ℕ := if cb.empty then none else some cb.first

/-- The cell of an iterator, which for `end()` is that behind the last element. -/
def mapPointer (cb : CircularBuffer α) (p : Option ℕ) : ℕ := p.getD cb.last

/-- `linearize_pointer`, less `m_buff`. -/
def linearizePointer (cb : CircularBuffer α) : Option ℕ → ℕ
  | none => cb.size
  | some p => if p < cb.first then p + (cb.capacity - cb.first) else p - cb.first

/-- The difference of two iterators. -/
def diff (cb : CircularBuffer α) (it it' : Option ℕ) : ℤ :=
  (cb.linearizePointer it : ℤ) - cb.linearizePointer it'

/-- `operator++`. -/
def next (cb : CircularBuffer α) : Option ℕ → Except Fault (Option ℕ)
  | none => .error .assertion
  | some p =>
    let p := increment cb.capacity p
    .ok (if p = cb.last then none else some p)

/-- `operator+=`. -/
def plus (cb : CircularBuffer α) (it : Option ℕ) (n : ℕ) : Except Fault (Option ℕ) :=
  if 0 < n then do
    cbAssert ((n : ℤ) ≤ cb.diff none it)
    match it with
    | none => .error .assertion
    | some p =>
      let p := add cb.capacity p n
      .ok (if p = cb.last then none else some p)
  else .ok it

/-- `operator-=`. -/
def minus (cb : CircularBuffer α) (it : Option ℕ) (n : ℕ) : Except Fault (Option ℕ) :=
  if 0 < n then do
    cbAssert ((n : ℤ) ≤ cb.diff it cb.begin)
    .ok (some (sub cb.capacity (cb.mapPointer it) n))
  else .ok it

/-- The elements from `it` to `end()`. -/
def elementsFrom (cb : CircularBuffer α) : ℕ → Option ℕ → Except Fault (List α)
  | _, none => .ok []
  | 0, some _ => .error .endless
  | fuel + 1, some p => do
    let v ← read cb.buff p
    let it ← cb.next (some p)
    let l ← elementsFrom cb fuel it
    .ok (v :: l)

/-- The elements from `begin()` to `end()`. -/
def elements (cb : CircularBuffer α) : Except Fault (List α) :=
  cb.elementsFrom cb.capacity cb.begin

section Operations
variable (T : ValueType α)

/-! ### Push and pop -/

/-- `push_back_impl`. -/
def pushBack (cb : CircularBuffer α) (item : α) : Except Fault (CircularBuffer α) :=
  if cb.full then
    if cb.empty then .ok cb
    else do
      let buff ← replace T cb.buff cb.last item
      let last := increment cb.capacity cb.last
      .ok { cb with buff := buff, last := last, first := last }
  else do
    let buff ← construct T cb.buff cb.last item
    .ok { cb with buff := buff, last := increment cb.capacity cb.last, size := cb.size + 1 }

/-- `push_front_impl`. -/
def pushFront (cb : CircularBuffer α) (item : α) : Except Fault (CircularBuffer α) :=
  if cb.full then
    if cb.empty then .ok cb
    else do
      let first := decrement cb.capacity cb.first
      let buff ← replace T cb.buff first item
      .ok { cb with buff := buff, first := first, last := first }
  else do
    let first := decrement cb.capacity cb.first
    let buff ← construct T cb.buff first item
    .ok { cb with buff := buff, first := first, size := cb.size + 1 }

/-- `decrement(m_last); destroy_item(m_last); --m_size;` -/
def destroyLast (cb : CircularBuffer α) : Except Fault (CircularBuffer α) := do
  let last := decrement cb.capacity cb.last
  let buff ← destroyItem T cb.buff last
  .ok { cb with buff := buff, last := last, size := cb.size - 1 }

/-- `destroy_item(m_first); increment(m_first); --m_size;` -/
def destroyFirst (cb : CircularBuffer α) : Except Fault (CircularBuffer α) := do
  let buff ← destroyItem T cb.buff cb.first
  .ok { cb with buff := buff, first := increment cb.capacity cb.first, size := cb.size - 1 }

/-- `pop_back`: the last element is destroyed. -/
def popBack (cb : CircularBuffer α) : Except Fault (CircularBuffer α) := do
  cbAssert (cb.empty = false)
  destroyLast T cb

/-- `pop_front`: the first element is destroyed. -/
def popFront (cb : CircularBuffer α) : Except Fault (CircularBuffer α) := do
  cbAssert (cb.empty = false)
  destroyFirst T cb

/-! ### Insert -/

/-- `increment(m_last); if (full()) m_first = m_last; else ++m_size;` -/
def growBack (cb : CircularBuffer α) (buff : List (Option α)) : CircularBuffer α :=
  let last := increment cb.capacity cb.last
  if cb.full then { cb with buff := buff, last := last, first := last }
  else { cb with buff := buff, last := last, size := cb.size + 1 }

/-- `decrement(m_first); if (full()) m_last = m_first; else ++m_size;` -/
def growFront (cb : CircularBuffer α) (buff : List (Option α)) : CircularBuffer α :=
  let first := decrement cb.capacity cb.first
  if cb.full then { cb with buff := buff, first := first, last := first }
  else { cb with buff := buff, first := first, size := cb.size + 1 }

/-- The cells `insert_item` writes, and the pointer to the new element. -/
def insertCells (cb : CircularBuffer α) (pos : Option ℕ) (item : Item α) :
    Except Fault (List (Option α) × ℕ) :=
  match pos with
  | none => do
    let v ← item.get cb.buff
    let buff ← constructOrReplace T (!cb.full) cb.buff cb.last v
    .ok (buff, cb.last)
  | some p => do
    let (buff, _) ← backward T T.moved (fun c _ => c) p (cb.capacity + 1) (!cb.full) cb.buff
      cb.last cb.last
    -- the elements from `pos` on have moved
    let v ← item.get buff
    let buff ← replace T buff p v
    .ok (buff, p)

/-- `insert_item`: make room by moving the elements behind `pos`, and put the item there. -/
def insertItem (cb : CircularBuffer α) (pos : Option ℕ) (item : Item α) :
    Except Fault (CircularBuffer α × Option ℕ) := do
  let (buff, p) ← insertCells T cb pos item
  .ok (growBack cb buff, some p)

/-- `insert(pos, item)`. -/
def insert (cb : CircularBuffer α) (pos : Option ℕ) (item : Item α) :
    Except Fault (CircularBuffer α × Option ℕ) :=
  if cb.full ∧ pos = cb.begin then .ok (cb, cb.begin) else insertItem T cb pos item

/-- The cells `rinsert` writes, and the pointer to the new element. -/
def rinsertCells (cb : CircularBuffer α) (pos : Option ℕ) (item : Item α) :
    Except Fault (List (Option α) × ℕ) :=
  let first := decrement cb.capacity cb.first
  if pos = cb.begin then do
    let v ← item.get cb.buff
    let buff ← constructOrReplace T (!cb.full) cb.buff first v
    .ok (buff, first)
  else do
    let p := cb.mapPointer pos
    let (buff, _) ← forward T T.moved (fun c _ => c) p (cb.capacity + 1) (!cb.full) cb.buff
      cb.first first
    let p := decrement cb.capacity p
    let v ← item.get buff
    let buff ← replace T buff p v
    .ok (buff, p)

/-- `rinsert(pos, item)`. -/
def rinsert (cb : CircularBuffer α) (pos : Option ℕ) (item : Item α) :
    Except Fault (CircularBuffer α × Option ℕ) :=
  if cb.full ∧ pos = none then .ok (cb, none)
  else do
    let (buff, p) ← rinsertCells T cb pos item
    .ok (growFront cb buff, some p)

/-- `is_uninitialized`, for a cell that has no element if the elements do not wrap around. -/
def isUninitialized (cb : CircularBuffer α) (p : ℕ) : Bool :=
  cb.last ≤ p && (cb.first < cb.last || p < cb.first)

/-- How many cells an insertion of `n` elements constructs: `reserve()`, or `n` if that is less. -/
def constructCount (cb : CircularBuffer α) (n : ℕ) : ℕ :=
  if n < cb.reserve then n else cb.reserve

/-- The cells `insert_n` writes. -/
def insertNCells (cb : CircularBuffer α) (pos : Option ℕ) (n : ℕ) (wrapper : ℕ → Item α) :
    Except Fault (List (Option α)) :=
  let cons := cb.constructCount n
  match pos with
  | none => do
    let (buff, p) ← fill T (fun _ => true) wrapper cons 0 cb.buff cb.last
    let (buff, _) ← fill T (fun _ => false) wrapper (n - cons) cons buff p
    .ok buff
  | some p => do
    let (buff, _) ← backward T id (fun _ dest => cb.isUninitialized dest) p (cb.capacity + 1)
      false cb.buff cb.last (add cb.capacity cb.last (n - 1))
    let (buff, _) ← fill T cb.isUninitialized wrapper n 0 buff p
    .ok buff

/-- `insert_n`: the items, with those at the start overwritten when there is no room. -/
def insertN (cb : CircularBuffer α) (pos : Option ℕ) (n : ℕ) (wrapper : ℕ → Item α) :
    Except Fault (CircularBuffer α) := do
  let cons := cb.constructCount n
  let buff ← insertNCells T cb pos n wrapper
  .ok { buff := buff, last := add cb.capacity cb.last n,
        first := add cb.capacity cb.first (n - cons), size := cb.size + cons }

/-- `insert(pos, n, item)`. -/
def insertFill (cb : CircularBuffer α) (pos : Option ℕ) (n : ℕ) (item : Item α) :
    Except Fault (CircularBuffer α) :=
  if n = 0 then .ok cb
  else
    let copy := ((cb.capacity : ℤ) - cb.diff none pos).toNat
    if copy = 0 then .ok cb
    else insertN T cb pos (if copy < n then copy else n) fun _ => item

/-- The cells `rinsert_n` writes, for an `n` that fits. -/
def rinsertNCells (cb : CircularBuffer α) (pos : Option ℕ) (n : ℕ) (wrapper : ℕ → Item α) :
    Except Fault (List (Option α)) :=
  let cons := cb.constructCount n
  if pos = cb.begin then do
    let (buff, p) ← fill T (fun _ => false) wrapper (n - cons) 0 cb.buff
      (sub cb.capacity cb.first n)
    let (buff, _) ← fill T (fun _ => true) wrapper cons (n - cons) buff p
    .ok buff
  else do
    let (buff, dest) ← forward T id (fun _ dest => cb.isUninitialized dest) (cb.mapPointer pos)
      (cb.capacity + 1) false cb.buff cb.first (sub cb.capacity cb.first n)
    let (buff, _) ← fill T cb.isUninitialized wrapper n 0 buff dest
    .ok buff

/-- `rinsert_n`: the items, with those at the end overwritten when there is no room. -/
def rinsertN (cb : CircularBuffer α) (pos : Option ℕ) (n : ℕ) (wrapper : ℕ → Item α) :
    Except Fault (CircularBuffer α) :=
  if n = 0 then .ok cb
  else
    let copy := ((cb.capacity : ℤ) - cb.diff pos cb.begin).toNat
    if copy = 0 then .ok cb
    else do
      let n := if copy < n then copy else n
      let cons := cb.constructCount n
      let buff ← rinsertNCells T cb pos n wrapper
      .ok { buff := buff, first := sub cb.capacity cb.first n,
            last := sub cb.capacity cb.last (n - cons), size := cb.size + cons }

/-- `rinsert(pos, n, item)`. -/
def rinsertFill (cb : CircularBuffer α) (pos : Option ℕ) (n : ℕ) (item : Item α) :
    Except Fault (CircularBuffer α) := rinsertN T cb pos n fun _ => item

/-! ### Erase -/

/-- `erase(pos)`. -/
def erase (cb : CircularBuffer α) (pos : Option ℕ) :
    Except Fault (CircularBuffer α × Option ℕ) :=
  match pos with
  | none => .error .assertion
  | some p => do
    let (buff, _) ← forward T T.moved (fun _ _ => false) cb.last (cb.capacity + 1) false cb.buff
      (increment cb.capacity p) p
    let cb ← destroyLast T { cb with buff := buff }
    .ok (cb, if cb.last = p then none else some p)

/-- `while (last.m_it != 0) replace((first++).m_it, move_if_noexcept(*last++));` -/
def eraseLoop (cb : CircularBuffer α) :
    ℕ → List (Option α) → Option ℕ → Option ℕ → Except Fault (List (Option α) × Option ℕ)
  | _, s, first, none => .ok (s, first)
  | 0, _, _, some _ => .error .endless
  | _ + 1, _, none, some _ => .error .assertion
  | fuel + 1, s, some p, some q => do
    let (v, s) ← take T.moved s q
    let s ← replace T s p v
    let first ← cb.next (some p)
    let last ← cb.next (some q)
    eraseLoop cb fuel s first last

/-- `do { decrement(m_last); destroy_item(m_last); --m_size; } while (m_last != stop);` -/
def destroyLastTo (stop : Option ℕ) : ℕ → CircularBuffer α → Except Fault (CircularBuffer α)
  | 0, _ => .error .endless
  | fuel + 1, cb => do
    let cb ← destroyLast T cb
    if some cb.last ≠ stop then destroyLastTo stop fuel cb else .ok cb

/-- `erase(first, last)`. -/
def eraseRange (cb : CircularBuffer α) (first last : Option ℕ) :
    Except Fault (CircularBuffer α × Option ℕ) := do
  cbAssert (cb.linearizePointer first ≤ cb.linearizePointer last)
  if first = last then .ok (cb, first)
  else
    let (buff, it) ← eraseLoop T cb (cb.capacity + 1) cb.buff first last
    let cb ← destroyLastTo T it (cb.capacity + 1) { cb with buff := buff }
    .ok (cb, if some cb.last = first then none else first)

/-- `rerase(pos)`. -/
def rerase (cb : CircularBuffer α) (pos : Option ℕ) :
    Except Fault (CircularBuffer α × Option ℕ) :=
  match pos with
  | none => .error .assertion
  | some p => do
    let (buff, p') ← backward T T.moved (fun _ _ => false) cb.first (cb.capacity + 1) false cb.buff
      p p
    let cb ← destroyFirst T { cb with buff := buff }
    .ok (cb, if p' = p then cb.begin else some p)

/-- `while (first.m_it != m_first) { decrement(first.m_it); decrement(p);
replace(p, move_if_noexcept(*first.m_it)); }` -/
def reraseLoop (stop : ℕ) : ℕ → List (Option α) → ℕ → ℕ → Except Fault (List (Option α) × ℕ)
  | 0, _, _, _ => .error .endless
  | fuel + 1, s, src, p =>
    if src = stop then .ok (s, p)
    else do
      let src := decrement s.length src
      let p := decrement s.length p
      let (v, s) ← take T.moved s src
      let s ← replace T s p v
      reraseLoop stop fuel s src p

/-- `do { destroy_item(m_first); increment(m_first); --m_size; } while (m_first != stop);` -/
def destroyFirstTo (stop : ℕ) : ℕ → CircularBuffer α → Except Fault (CircularBuffer α)
  | 0, _ => .error .endless
  | fuel + 1, cb => do
    let cb ← destroyFirst T cb
    if cb.first ≠ stop then destroyFirstTo stop fuel cb else .ok cb

/-- `rerase(first, last)`. -/
def reraseRange (cb : CircularBuffer α) (first last : Option ℕ) :
    Except Fault (CircularBuffer α × Option ℕ) := do
  cbAssert (cb.linearizePointer first ≤ cb.linearizePointer last)
  if first = last then .ok (cb, first)
  else match first with
    | none => .error .assertion
    | some q => do
      let l := cb.mapPointer last
      let (buff, p) ← reraseLoop T cb.first (cb.capacity + 1) cb.buff q l
      let cb ← destroyFirstTo T p (cb.capacity + 1) { cb with buff := buff }
      if cb.first = l then .ok (cb, cb.begin)
      else .ok (cb, some (decrement cb.capacity l))

/-- `erase_begin(n, true_type)`. -/
def eraseBeginScalar (cb : CircularBuffer α) (n : ℕ) : CircularBuffer α :=
  { cb with first := add cb.capacity cb.first n, size := cb.size - n }

/-- `erase_begin(n, false_type)`. -/
def eraseBeginItems (cb : CircularBuffer α) (n : ℕ) : Except Fault (CircularBuffer α) := do
  let it ← cb.plus cb.begin n
  let (cb, _) ← reraseRange T cb cb.begin it
  .ok cb

/-- `erase_begin`: the first `n` elements go. -/
def eraseBegin (cb : CircularBuffer α) (n : ℕ) : Except Fault (CircularBuffer α) := do
  cbAssert (n ≤ cb.size)
  if T.scalar then .ok (eraseBeginScalar cb n) else eraseBeginItems T cb n

/-- `erase_end(n, true_type)`. -/
def eraseEndScalar (cb : CircularBuffer α) (n : ℕ) : CircularBuffer α :=
  { cb with last := sub cb.capacity cb.last n, size := cb.size - n }

/-- `erase_end(n, false_type)`. -/
def eraseEndItems (cb : CircularBuffer α) (n : ℕ) : Except Fault (CircularBuffer α) := do
  let it ← cb.minus none n
  let (cb, _) ← eraseRange T cb it none
  .ok cb

/-- `erase_end`: the last `n` elements go. -/
def eraseEnd (cb : CircularBuffer α) (n : ℕ) : Except Fault (CircularBuffer α) := do
  cbAssert (n ≤ cb.size)
  if T.scalar then .ok (eraseEndScalar cb n) else eraseEndItems T cb n

/-- `destroy_content(true_type)`. -/
def destroyContentScalar (cb : CircularBuffer α) : CircularBuffer α :=
  { cb with first := add cb.capacity cb.first cb.size }

/-- `for (ii = 0; ii < size(); ++ii, increment(m_first)) destroy_item(m_first);`, `k` turns left. -/
def destroyContentLoop : ℕ → CircularBuffer α → Except Fault (CircularBuffer α)
  | 0, cb => .ok cb
  | k + 1, cb => do
    let buff ← destroyItem T cb.buff cb.first
    destroyContentLoop k { cb with buff := buff, first := increment cb.capacity cb.first }

/-- `destroy_content(false_type)`. -/
def destroyContentItems (cb : CircularBuffer α) : Except Fault (CircularBuffer α) :=
  destroyContentLoop T cb.size cb

/-- `destroy_content`: scalars are not destroyed. -/
def destroyContent (cb : CircularBuffer α) : Except Fault (CircularBuffer α) :=
  if T.scalar then .ok (destroyContentScalar cb) else destroyContentItems T cb

/-- `clear`: what is left has no elements. -/
def clear (cb : CircularBuffer α) : Except Fault (CircularBuffer α) := do
  let cb ← destroyContent T cb
  .ok { cb with size := 0 }

/-! ### Rotation and capacity -/

/-- `push_front(move_if_noexcept(back())); pop_back();`, `k` times. -/
def rotateBack : ℕ → CircularBuffer α → Except Fault (CircularBuffer α)
  | 0, cb => .ok cb
  | k + 1, cb => do
    cbAssert (cb.empty = false)
    let (v, buff) ← take T.moved cb.buff ((if cb.last = 0 then cb.capacity else cb.last) - 1)
    let cb ← pushFront T { cb with buff := buff } v
    let cb ← popBack T cb
    rotateBack k cb

/-- `push_back(move_if_noexcept(front())); pop_front();`, `k` times. -/
def rotateFront : ℕ → CircularBuffer α → Except Fault (CircularBuffer α)
  | 0, cb => .ok cb
  | k + 1, cb => do
    cbAssert (cb.empty = false)
    let (v, buff) ← take T.moved cb.buff cb.first
    let cb ← pushBack T { cb with buff := buff } v
    let cb ← popFront T cb
    rotateFront k cb

/-- `rotate`: by moving the start if the buffer is full, else element by element. -/
def rotate (cb : CircularBuffer α) (newBegin : Option ℕ) : Except Fault (CircularBuffer α) :=
  match newBegin with
  | none => .error .assertion
  | some p =>
    if cb.full then .ok { cb with first := p, last := p }
    else
      let m := cb.diff none newBegin
      let n := cb.diff newBegin cb.begin
      if m < n then rotateBack T m.toNat cb else rotateFront T n.toNat cb

/-- `uninitialized_move_if_noexcept(first, last, dest)`, from the old cells to the new. -/
def uninitializedMove (cb : CircularBuffer α) (last : Option ℕ) :
    ℕ → List (Option α) → List (Option α) → Option ℕ → ℕ →
      Except Fault (List (Option α) × List (Option α) × ℕ)
  | 0, _, _, _, _ => .error .endless
  | fuel + 1, s, buff, first, dest =>
    if first = last then .ok (s, buff, dest)
    else match first with
      | none => .error .assertion
      | some p => do
        let (v, s) ← take T.moved s p
        let buff ← construct T buff dest v
        let first ← cb.next (some p)
        uninitializedMove cb last fuel s buff first (dest + 1)

/-- `reset`, with the `destroy` it starts with. -/
def reset (cb : CircularBuffer α) (buff : List (Option α)) (last newCapacity : ℕ) :
    Except Fault (CircularBuffer α) := do
  let _ ← destroyContent T cb
  .ok { buff := buff, size := last, first := 0, last := if last = newCapacity then 0 else last }

/-- `set_capacity`: into new cells, without the elements at the end that do not fit. -/
def setCapacity (cb : CircularBuffer α) (newCapacity : ℕ) : Except Fault (CircularBuffer α) :=
  if newCapacity = cb.capacity then .ok cb
  else do
    let e ← cb.plus cb.begin (min newCapacity cb.size)
    let (s, buff, last) ← uninitializedMove T cb e (cb.capacity + 1) cb.buff
      (List.replicate newCapacity none) cb.begin 0
    reset T { cb with buff := s } buff last newCapacity

/-- `rset_capacity`: into new cells, without the elements at the start that do not fit. -/
def rsetCapacity (cb : CircularBuffer α) (newCapacity : ℕ) : Except Fault (CircularBuffer α) :=
  if newCapacity = cb.capacity then .ok cb
  else do
    let b ← cb.minus none (min newCapacity cb.size)
    let (s, buff, last) ← uninitializedMove T cb none (cb.capacity + 1) cb.buff
      (List.replicate newCapacity none) b 0
    reset T { cb with buff := s } buff last newCapacity

/-- `if (new_size > capacity()) set_capacity(new_size);` -/
def growCapacity (cb : CircularBuffer α) (newSize : ℕ) : Except Fault (CircularBuffer α) :=
  if cb.capacity < newSize then setCapacity T cb newSize else .ok cb

/-- The item after it: a larger storage is another one. -/
def grownItem (cb : CircularBuffer α) (newSize : ℕ) : Item α → Item α
  | .value v => .value v
  | .cell p => if cb.capacity < newSize then .freed else .cell p
  | .freed => .freed

/-- `resize`: at the end, in new cells if there are too few. -/
def resize (cb : CircularBuffer α) (newSize : ℕ) (item : Item α) :
    Except Fault (CircularBuffer α) :=
  if cb.size < newSize then do
    let item := cb.grownItem newSize item
    let cb ← growCapacity T cb newSize
    insertFill T cb none (newSize - cb.size) item
  else do
    let it ← cb.minus none (cb.size - newSize)
    let (cb, _) ← eraseRange T cb it none
    .ok cb

/-- `rresize`: at the start, in new cells if there are too few. -/
def rresize (cb : CircularBuffer α) (newSize : ℕ) (item : Item α) :
    Except Fault (CircularBuffer α) :=
  if cb.size < newSize then do
    let item := cb.grownItem newSize item
    let cb ← growCapacity T cb newSize
    rinsertFill T cb cb.begin (newSize - cb.size) item
  else do
    let it ← cb.minus none newSize
    let (cb, _) ← reraseRange T cb cb.begin it
    .ok cb

/-! ### Linearization -/

/-- The local variables of `linearize`, and the cells. -/
structure Linearizing (α : Type) where
  buff : List (Option α)
  src : ℕ
  dest : ℕ
  moved : ℕ
  constructed : ℕ
  first : ℕ

/-- One element moved from `src` to `dest`, or the two swapped. -/
def linearizeMove (cb : CircularBuffer α) (st : Linearizing α) : Except Fault (Linearizing α) :=
  if cb.isUninitialized st.dest then do
    let (v, buff) ← take T.moved st.buff st.src
    let buff ← construct T buff st.dest v
    .ok { st with buff := buff, constructed := st.constructed + 1 }
  else do
    let (tmp, buff) ← take T.moved st.buff st.src
    let (v, buff) ← take T.moved buff st.dest
    let buff ← replace T buff st.src v
    let buff ← replace T buff st.dest tmp
    .ok { st with buff := buff }

/-- The inner loop of `linearize`. -/
def linearizeInner (cb : CircularBuffer α) :
    ℕ → ℕ → Linearizing α → Except Fault (Linearizing α)
  | 0, _, _ => .error .endless
  | fuel + 1, ii, st =>
    if st.src < cb.capacity then
      if st.moved = cb.size then .ok { st with first := st.dest }
      else if st.dest = st.first then .ok { st with first := st.first + ii }
      else do
        let st ← linearizeMove T cb st
        linearizeInner cb fuel (ii + 1)
          { st with src := st.src + 1, dest := st.dest + 1, moved := st.moved + 1 }
    else .ok st

/-- The outer loop of `linearize`. -/
def linearizeOuter (cb : CircularBuffer α) : ℕ → Linearizing α → Except Fault (Linearizing α)
  | 0, _ => .error .endless
  | fuel + 1, st =>
    if st.dest < st.src then do
      let st ← linearizeInner T cb (cb.capacity + 1) 0 st
      linearizeOuter cb fuel { st with src := st.first }
    else .ok st

/-- `for (; src < m_end; ++src) destroy_item(src);`, `k` turns left. -/
def destroyCells : ℕ → List (Option α) → ℕ → Except Fault (List (Option α))
  | 0, s, _ => .ok s
  | k + 1, s, src => do
    let s ← destroyItem T s src
    destroyCells k s (src + 1)

/-- `linearize`: the elements from the first cell on. -/
def linearize (cb : CircularBuffer α) : Except Fault (CircularBuffer α) :=
  if cb.empty then .ok cb
  else if cb.first < cb.last ∨ cb.last = 0 then .ok cb
  else do
    let st ← linearizeOuter T cb (cb.capacity + 2)
      { buff := cb.buff, src := cb.first, dest := 0, moved := 0, constructed := 0,
        first := cb.first }
    let buff ← destroyCells T st.constructed st.buff (cb.capacity - st.constructed)
    .ok { cb with buff := buff, first := 0, last := add cb.capacity 0 cb.size }

/-- `linearize`, with the pointer it returns: `0`, `m_first` or `m_buff`. -/
def linearizeArray (cb : CircularBuffer α) : Except Fault (CircularBuffer α × Option ℕ) := do
  let cb' ← linearize T cb
  .ok (cb', if cb.empty then none
    else if cb.first < cb.last ∨ cb.last = 0 then some cb.first else some 0)

end Operations

end SourceLibs.CircularBuffer
