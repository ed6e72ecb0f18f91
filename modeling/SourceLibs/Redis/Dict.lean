import Mathlib.Data.Int.Basic
import Mathlib.Algebra.Order.Ring.Nat
import Mathlib.Data.Nat.Notation

/-!
# Redis — the dict

`dict.c`.  A chained hash table that is resized step by step: while `rehashidx` is not `-1` the entries
are spread over two tables, `ht[0]` from bucket `rehashidx` on and `ht[1]`.  Every call may move a bucket,
unless a safe iterator is open.

A function that would read past a table, or fail an assertion, returns nothing.  Hash function and key
comparison are parameters; a hash is an `unsigned int`, and the index of a new entry an `int`.  Counts do
not overflow.
-/

namespace SourceLibs.RedisDict

/-- `dictht`; a table that is not allocated has no buckets. -/
structure Dictht (K V : Type*) where
  table : List (List (K × V))
  size : ℕ
  sizemask : ℕ
  used : ℕ

/-- `dict`, with the global `dict_can_resize`. -/
structure Dict (K V : Type*) where
  ht0 : Dictht K V
  ht1 : Dictht K V
  rehashidx : ℤ
  iterators : ℕ
  canResize : Bool

/-- A `dictEntry *`: a table, a bucket and a position in its chain. -/
structure EntryPtr where
  second : Bool
  idx : ℕ
  pos : ℕ

variable {K V : Type*}

/-- `_dictReset`: a table without buckets. -/
def dictReset : Dictht K V := ⟨[], 0, 0, 0⟩

def dictCreate : Dict K V := ⟨dictReset, dictReset, -1, 0, true⟩

/-- `DICT_HT_INITIAL_SIZE`, `LONG_MAX`, `dict_force_resize_ratio`. -/
def dictHtInitialSize : ℕ := 4
def longMax : ℕ := 2 ^ 63 - 1
def dictForceResizeRatio : ℕ := 5

/-- Entries are moved to the second table. -/
def dictIsRehashing (d : Dict K V) : Bool := d.rehashidx != -1

/-- The loop of `_dictNextPower`. -/
def nextPowerLoop (size : ℕ) : ℕ → ℕ → ℕ
  | 0, i => i
  | fuel + 1, i => if i ≥ size then i else nextPowerLoop size fuel (i * 2)

/-- `_dictNextPower`; below `LONG_MAX`, 61 doublings of 4 are enough. -/
def dictNextPower (size : ℕ) : ℕ :=
  if size ≥ longMax then longMax else nextPowerLoop size 61 dictHtInitialSize

/-- `dictExpand`: a table of the next power of two, to move to. -/
def dictExpand (d : Dict K V) (size : ℕ) : Dict K V × Bool :=
  let realsize := dictNextPower size
  if dictIsRehashing d ∨ d.ht0.used > size then (d, false)
  else if realsize = d.ht0.size then (d, false)
  else
    let n : Dictht K V := ⟨List.replicate realsize [], realsize, realsize - 1, 0⟩
    if d.ht0.table.isEmpty then ({ d with ht0 := n }, true)
    else ({ d with ht1 := n, rehashidx := 0 }, true)

/-- `dictResize`; `minimal` is an `int`. -/
def dictResize (d : Dict K V) : Dict K V × Bool :=
  if !d.canResize || dictIsRehashing d then (d, false)
  else
    let minimal := (d.ht0.used : ℤ).bmod (2 ^ 32)
    let minimal := if minimal < dictHtInitialSize then (dictHtInitialSize : ℤ) else minimal
    dictExpand d minimal.toNat

section Hash
variable (hash : K → ℕ)

/-- The inner loop of `dictRehash` that looks for a bucket with entries; it stops too after
`empty_visits` empty ones. -/
def skipEmpty (table : List (List (K × V))) : ℕ → ℕ → ℤ → Option (ℕ × ℤ × Bool)
  | 0, _, _ => none
  | fuel + 1, idx, empty =>
    match table[idx]? with
    | none => none
    | some [] =>
      if empty - 1 = 0 then some (idx + 1, empty - 1, true)
      else skipEmpty table fuel (idx + 1) (empty - 1)
    | some (_ :: _) => some (idx, empty, false)

/-- An entry is put in front of its bucket of `ht[1]`. -/
def moveEntry (d : Dict K V) (de : K × V) : Option (Dict K V) :=
  let h := hash de.1 &&& d.ht1.sizemask
  match d.ht1.table[h]? with
  | none => none
  | some b =>
    some { d with
      ht0 := { d.ht0 with used := d.ht0.used - 1 }
      ht1 := { d.ht1 with table := d.ht1.table.set h (de :: b), used := d.ht1.used + 1 } }

/-- The entries of a bucket are moved in their order. -/
def moveEntries : Dict K V → List (K × V) → Option (Dict K V)
  | d, [] => some d
  | d, de :: des =>
    match moveEntry hash d de with
    | none => none
    | some d => moveEntries d des

/-- The bucket `idx` of `ht[0]` is moved. -/
def moveBucket (d : Dict K V) (idx : ℕ) : Option (Dict K V) :=
  match d.ht0.table[idx]? with
  | none => none
  | some b =>
    match moveEntries hash d b with
    | none => none
    | some d => some { d with
        ht0 := { d.ht0 with table := d.ht0.table.set idx [] }
        rehashidx := idx + 1 }

/-- The loop of `dictRehash`, and whether it returned early; a round takes an entry at least. -/
def rehashLoop : ℕ → Dict K V → ℤ → ℤ → Option (Dict K V × Bool)
  | fuel, d, n, empty =>
    if n = 0 ∨ d.ht0.used = 0 then some (d, false)
    else
      match fuel with
      | 0 => none
      | fuel + 1 =>
        if d.ht0.size > d.rehashidx.toNat then
          match skipEmpty d.ht0.table (d.ht0.table.length + 1) d.rehashidx.toNat empty with
          | none => none
          | some (idx, _, true) => some ({ d with rehashidx := idx }, true)
          | some (idx, empty, false) =>
            match moveBucket hash d idx with
            | none => none
            | some d => rehashLoop fuel d (n - 1) empty
        else none

/-- `dictRehash`; `n` and `empty_visits` are `int`. -/
def dictRehash (d : Dict K V) (n : ℤ) : Option (Dict K V × Bool) :=
  if !dictIsRehashing d then some (d, false)
  else
    match rehashLoop hash d.ht0.used d n ((n * 10).bmod (2 ^ 32)) with
    | none => none
    | some (d, true) => some (d, true)
    | some (d, false) =>
      if d.ht0.used = 0 then
        some ({ d with ht0 := d.ht1, ht1 := dictReset, rehashidx := -1 }, false)
      else some (d, true)

/-- `if (dictIsRehashing(d)) _dictRehashStep(d)`. -/
def dictRehashStep (d : Dict K V) : Option (Dict K V) :=
  if dictIsRehashing d then
    if d.iterators = 0 then
      match dictRehash hash d 1 with
      | none => none
      | some (d, _) => some d
    else some d
  else some d

def dictExpandIfNeeded (d : Dict K V) : Dict K V × Bool :=
  if dictIsRehashing d then (d, true)
  else if d.ht0.size = 0 then dictExpand d dictHtInitialSize
  else if d.ht0.used ≥ d.ht0.size ∧
      (d.canResize ∨ d.ht0.used / d.ht0.size > dictForceResizeRatio) then
    dictExpand d (d.ht0.used * 2)
  else (d, true)

variable (eq : K → K → Bool)

/-- A table is searched: the bucket, and where in it the key is. -/
def searchTable (t : Dictht K V) (key : K) : Option (ℕ × Option ℕ) :=
  let idx := hash key &&& t.sizemask
  match t.table[idx]? with
  | none => none
  | some b => some (idx, b.findIdx? fun e => eq key e.1)

/-- An `unsigned int` as an `int`. -/
def intOfUnsigned (n : ℕ) : ℤ := if n < 2 ^ 31 then n else .negSucc (2 ^ 32 - 1 - n)

/-- `_dictKeyIndex`. -/
def dictKeyIndex (d : Dict K V) (key : K) : Option (Dict K V × ℤ) :=
  match dictExpandIfNeeded d with
  | (d, false) => some (d, -1)
  | (d, true) =>
    match searchTable hash eq d.ht0 key with
    | none => none
    | some (_, some _) => some (d, -1)
    | some (idx, none) =>
      if dictIsRehashing d then
        match searchTable hash eq d.ht1 key with
        | none => none
        | some (_, some _) => some (d, -1)
        | some (idx, none) => some (d, intOfUnsigned idx)
      else some (d, intOfUnsigned idx)

/-- A new entry is put in front of `table[index]`. -/
def Dictht.push (t : Dictht K V) (index : ℤ) (e : K × V) : Option (Dictht K V) :=
  if index < 0 then none
  else
    match t.table[index.toNat]? with
    | none => none
    | some b => some { t with table := t.table.set index.toNat (e :: b), used := t.used + 1 }

/-- `dictAdd`, `dictAddRaw` with the value that is set in the entry. -/
def dictAdd (d : Dict K V) (key : K) (val : V) : Option (Dict K V × Bool) :=
  match dictRehashStep hash d with
  | none => none
  | some d =>
    match dictKeyIndex hash eq d key with
    | none => none
    | some (d, index) =>
      if index = -1 then some (d, false)
      else if dictIsRehashing d then
        match d.ht1.push index (key, val) with
        | none => none
        | some t => some ({ d with ht1 := t }, true)
      else
        match d.ht0.push index (key, val) with
        | none => none
        | some t => some ({ d with ht0 := t }, true)

/-- `dictFind`; a step of rehashing comes first. -/
def dictFind (d : Dict K V) (key : K) : Option (Dict K V × Option EntryPtr) :=
  if d.ht0.used + d.ht1.used = 0 then some (d, none)
  else
    match dictRehashStep hash d with
    | none => none
    | some d =>
      match searchTable hash eq d.ht0 key with
      | none => none
      | some (idx, some pos) => some (d, some ⟨false, idx, pos⟩)
      | some (_, none) =>
        if dictIsRehashing d then
          match searchTable hash eq d.ht1 key with
          | none => none
          | some (idx, some pos) => some (d, some ⟨true, idx, pos⟩)
          | some (_, none) => some (d, none)
        else some (d, none)

end Hash

/-- The entry behind a pointer. -/
def Dict.entry (d : Dict K V) (p : EntryPtr) : Option (K × V) :=
  match (if p.second then d.ht1 else d.ht0).table[p.idx]? with
  | none => none
  | some b => b[p.pos]?

/-- `dictSetVal` in one table. -/
def Dictht.setVal (t : Dictht K V) (idx pos : ℕ) (val : V) : Option (Dictht K V) :=
  match t.table[idx]? with
  | none => none
  | some b =>
    match b[pos]? with
    | none => none
    | some e => some { t with table := t.table.set idx (b.set pos (e.1, val)) }

def dictSetVal (d : Dict K V) (p : EntryPtr) (val : V) : Option (Dict K V) :=
  if p.second then
    match d.ht1.setVal p.idx p.pos val with
    | none => none
    | some t => some { d with ht1 := t }
  else
    match d.ht0.setVal p.idx p.pos val with
    | none => none
    | some t => some { d with ht0 := t }

/-- An entry is unlinked from its chain. -/
def Dictht.unlink (t : Dictht K V) (idx pos : ℕ) : Option (Dictht K V) :=
  match t.table[idx]? with
  | none => none
  | some b => some { t with table := t.table.set idx (b.eraseIdx pos), used := t.used - 1 }

section Hash
variable (hash : K → ℕ) (eq : K → K → Bool)

def dictFetchValue (d : Dict K V) (key : K) : Option (Dict K V × Option V) :=
  match dictFind hash eq d key with
  | none => none
  | some (d, none) => some (d, none)
  | some (d, some p) =>
    match d.entry p with
    | none => none
    | some e => some (d, some e.2)

/-- `dictReplace`: whether the key is new. -/
def dictReplace (d : Dict K V) (key : K) (val : V) : Option (Dict K V × Bool) :=
  match dictAdd hash eq d key val with
  | none => none
  | some (d, true) => some (d, true)
  | some (d, false) =>
    match dictFind hash eq d key with
    | none => none
    | some (_, none) => none
    | some (d, some p) =>
      match dictSetVal d p val with
      | none => none
      | some d => some (d, false)

/-- `dictDelete`: whether the key was there. -/
def dictDelete (d : Dict K V) (key : K) : Option (Dict K V × Bool) :=
  if d.ht0.size = 0 then some (d, false)
  else
    match dictRehashStep hash d with
    | none => none
    | some d =>
      match searchTable hash eq d.ht0 key with
      | none => none
      | some (idx, some pos) =>
        match d.ht0.unlink idx pos with
        | none => none
        | some t => some ({ d with ht0 := t }, true)
      | some (_, none) =>
        if dictIsRehashing d then
          match searchTable hash eq d.ht1 key with
          | none => none
          | some (idx, some pos) =>
            match d.ht1.unlink idx pos with
            | none => none
            | some t => some ({ d with ht1 := t }, true)
          | some (_, none) => some (d, false)
        else some (d, false)

end Hash

end SourceLibs.RedisDict
