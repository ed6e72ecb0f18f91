import SourceLibs.Support.Cells
import Mathlib.Logic.Function.Basic

/-!
# Skynet — handles and names

`skynet_handle.c`: the table of the services, by handle, and the sorted table of their names.

A context has an address; its field `handle` is part of the state, and is set by the caller of
`skynet_handle_register` before the next call.  The slots are a list of length `slot_size`, the names an
array of `name_cap` cells.  Strings are of any linear order, as `strcmp` is one.  Reference counts are not
modelled, and the lock is held through each call.
-/

namespace SourceLibs.SkynetHandle
open Cells

/-- The bits of a handle that do not name the harbor. -/
def handleMask : ℕ := 0xffffff

/-- Where the harbor is in a handle. -/
def handleRemoteShift : ℕ := 24

/-- The slots at first. -/
def defaultSlotSize : ℕ := 4

/-- The names there may be. -/
def maxSlotSize : ℕ := 0x40000000

/-- Why a call does not return: an assertion, a bad access, or a loop that goes on. -/
inductive Abort where
  | slotSize
  | collision
  | nameCap
  | memory
  | diverges
  deriving DecidableEq

/-- A name and its handle. -/
structure HandleName (ν : Type*) where
  name : ν
  handle : ℕ

/-- The table of contexts, and the names in their order. -/
structure HandleStorage (ν : Type*) where
  harbor : ℕ
  handleIndex : ℕ
  slot : List (Option ℕ)
  nameCount : ℕ
  name : List (Option (HandleName ν))

variable {ν : Type*}

def skynetHandleInit (harbor : ℕ) : HandleStorage ν :=
  ⟨(harbor &&& 0xff) <<< handleRemoteShift, 1, List.replicate defaultSlotSize none, 0,
    List.replicate 2 none⟩

/-! ### The table of the services -/

/-- The first empty slot of the next handles, `i` and later, and its handle. -/
def probe (slot : List (Option ℕ)) (handleIndex : ℕ) : ℕ → ℕ → Option (ℕ × ℕ)
  | 0, _     => none
  | n + 1, i =>
    let handle := (i + handleIndex) &&& handleMask
    let hash := handle &&& (slot.length - 1)
    match slot[hash]? with
    | some none => some (hash, handle)
    | _         => probe slot handleIndex n (i + 1)

/-- The services go to the slots of a larger table. -/
def moveSlots (handleOf : ℕ → ℕ) (mask : ℕ) :
    List (Option ℕ) → List (Option ℕ) → Except Abort (List (Option ℕ))
  | [], newSlot               => .ok newSlot
  | none :: _, _              => .error .memory
  | some ctx :: slot, newSlot =>
    let hash := handleOf ctx &&& mask
    match newSlot[hash]? with
    | none          => .error .memory
    | some (some _) => .error .collision
    | some none     => moveSlots handleOf mask slot (newSlot.set hash (some ctx))

/-- The loop of `skynet_handle_register`. -/
def registerLoop (handleOf : ℕ → ℕ) (ctx : ℕ) :
    ℕ → HandleStorage ν → Except Abort (HandleStorage ν × ℕ)
  | 0, _        => .error .diverges
  | fuel + 1, s =>
    match probe s.slot s.handleIndex s.slot.length 0 with
    | some (hash, handle) =>
      .ok ({ s with slot := s.slot.set hash (some ctx), handleIndex := handle + 1 },
        handle ||| s.harbor)
    | none =>
      let size := s.slot.length * 2
      if size - 1 ≤ handleMask then
        match moveSlots handleOf (size - 1) s.slot (List.replicate size none) with
        | .error e => .error e
        | .ok slot => registerLoop handleOf ctx fuel { s with slot := slot }
      else .error .slotSize

/-- `skynet_handle_register`; a larger table has room. -/
def skynetHandleRegister (handleOf : ℕ → ℕ) (s : HandleStorage ν) (ctx : ℕ) :
    Except Abort (HandleStorage ν × ℕ) :=
  registerLoop handleOf ctx 2 s

/-- `skynet_handle_grab`: the context of a handle. -/
def skynetHandleGrab (handleOf : ℕ → ℕ) (s : HandleStorage ν) (handle : ℕ) : Option ℕ :=
  match s.slot[handle &&& (s.slot.length - 1)]? with
  | some (some ctx) => if handleOf ctx = handle then some ctx else none
  | _               => none

/-- `skynet_handle_retire`: the slot and the names go. -/
def skynetHandleRetire (handleOf : ℕ → ℕ) (s : HandleStorage ν) (handle : ℕ) :
    Except Abort (HandleStorage ν × Bool) :=
  let hash := handle &&& (s.slot.length - 1)
  match s.slot[hash]? with
  | some (some ctx) =>
    if handleOf ctx = handle then
      match pack (fun n => n.handle = handle) s.nameCount 0 0 s.name with
      | none           => .error .memory
      | some (name, j) =>
        .ok ({ s with slot := s.slot.set hash none, name := name, nameCount := j }, true)
    else .ok (s, false)
  | _ => .ok (s, false)

/-! ### The table of the names -/

section Names
variable [LinearOrder ν]

/-- `strcmp`: names are ordered. -/
def strcmp (a b : ν) : Ordering := compare a b

/-- `skynet_handle_findname`, by bisection; 0 if there is none. -/
def skynetHandleFindname (s : HandleStorage ν) (name : ν) : Except Abort ℕ :=
  match search s.name (fun n => strcmp n.name name) (s.nameCount + 1) 0 s.nameCount with
  | none             => .error .memory
  | some (none, _)   => .ok 0
  | some (some n, _) => .ok n.handle

/-- `_insert_name_before`: the names behind are moved, into new space if it is full. -/
def insertNameBefore (s : HandleStorage ν) (name : ν) (handle before : ℕ) :
    Except Abort (HandleStorage ν) :=
  let room : Except Abort (List (Option (HandleName ν))) :=
    if s.nameCount ≥ s.name.length then
      let nameCap := s.name.length * 2
      if nameCap ≤ maxSlotSize then
        match copy s.name 0 before 0 (List.replicate nameCap none) with
        | none   => .error .memory
        | some n =>
          match copy s.name 1 (s.nameCount - before) before n with
          | none   => .error .memory
          | some n => .ok n
      else .error .nameCap
    else
      match shiftUp before (s.nameCount - before) s.name with
      | none   => .error .memory
      | some n => .ok n
  match room with
  | .error e => .error e
  | .ok n    =>
    match write n before ⟨name, handle⟩ with
    | none   => .error .memory
    | some n => .ok { s with name := n, nameCount := s.nameCount + 1 }

/-- `skynet_handle_namehandle` and `_insert_name`: whether the name was new. -/
def skynetHandleNamehandle (s : HandleStorage ν) (handle : ℕ) (name : ν) :
    Except Abort (HandleStorage ν × Bool) :=
  match search s.name (fun n => strcmp n.name name) (s.nameCount + 1) 0 s.nameCount with
  | none                 => .error .memory
  | some (some _, _)     => .ok (s, false)
  | some (none, before)  =>
    match insertNameBefore s name handle before with
    | .error e => .error e
    | .ok s    => .ok (s, true)

end Names

/-! ### Calls -/

/-- The storage, and the field `handle` of each context. -/
structure State (ν : Type*) where
  storage : HandleStorage ν
  handleOf : ℕ → ℕ

/-- A call. -/
inductive Call (ν : Type*) where
  | register (ctx : ℕ)
  | retire (handle : ℕ)
  | grab (handle : ℕ)
  | namehandle (handle : ℕ) (name : ν)
  | findname (name : ν)

/-- What a call returns. -/
inductive Answer where
  | handle (h : ℕ)
  | done (yes : Bool)
  | context (ctx : Option ℕ)

/-- A call; the caller of `skynet_handle_register` sets the field of the context. -/
def call [LinearOrder ν] (s : State ν) : Call ν → Except Abort (State ν × Answer)
  | .register ctx =>
    match skynetHandleRegister s.handleOf s.storage ctx with
    | .error e      => .error e
    | .ok (t, h)    => .ok (⟨t, Function.update s.handleOf ctx h⟩, .handle h)
  | .retire h =>
    match skynetHandleRetire s.handleOf s.storage h with
    | .error e      => .error e
    | .ok (t, yes)  => .ok (⟨t, s.handleOf⟩, .done yes)
  | .grab h => .ok (s, .context (skynetHandleGrab s.handleOf s.storage h))
  | .namehandle h name =>
    match skynetHandleNamehandle s.storage h name with
    | .error e      => .error e
    | .ok (t, yes)  => .ok (⟨t, s.handleOf⟩, .done yes)
  | .findname name =>
    match skynetHandleFindname s.storage name with
    | .error e      => .error e
    | .ok h         => .ok (s, .handle h)

end SourceLibs.SkynetHandle
