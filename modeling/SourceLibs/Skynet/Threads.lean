import SourceLibs.Skynet.MessageQueue
import SourceLibs.Support.LinkedQueue

/-!
# Skynet — the threads

`skynet_mq.c`, `skynet_server.c`, `skynet_handle.c`: what the threads share, and what a thread does
between two releases of a lock.  A thread may use a context it has a reference to and push messages to
its queue; it may retire a handle; it may create a service; and it may be a worker, that is, run
`skynet_context_message_dispatch` with the queue the last call returned.  The callback of a service is
not modelled: what it does, another thread may do meanwhile.

A context has one queue, and both go by one number.  A step that fails an assertion, or touches a queue
that was freed, does not exist.
-/

namespace SourceLibs.SkynetMq

/-- What the threads share: the global list, the queues and the contexts.  `pushed` and `taken` record
the messages that went into a queue and that came out of it. -/
structure Shared (α : Type*) where
  Q : LinkedQueue ℕ
  mq : ℕ → Option (MessageQueue α)
  slot : ℕ → Option ℕ
  ref : ℕ → ℕ
  created : ℕ
  pushed : ℕ → List α
  taken : ℕ → List α

namespace Shared

variable {α : Type*}

/-- Nothing is created yet. -/
def init : Shared α :=
  ⟨LinkedQueue.empty, fun _ => none, fun _ => none, fun _ => 0, 0, fun _ => [], fun _ => []⟩

/-- A queue is written. -/
def setQueue (s : Shared α) (q : ℕ) (m : MessageQueue α) : Shared α :=
  { s with mq := Function.update s.mq q (some m) }

/-- `skynet_globalmq_push`. -/
def globalmqPush (s : Shared α) (q : ℕ) : Option (Shared α) :=
  match s.Q.push q with
  | some Q => some { s with Q := Q }
  | none   => none

/-- `skynet_globalmq_pop`. -/
def globalmqPop (s : Shared α) : Option (Shared α × Option ℕ) :=
  match s.Q.pop with
  | some (Q, q) => some ({ s with Q := Q }, q)
  | none        => none

/-- `skynet_mq_push`. -/
def mqPush (s : Shared α) (q : ℕ) (message : α) : Option (Shared α) :=
  match s.mq q with
  | none   => none
  | some m =>
    let s := { s with pushed := Function.update s.pushed q (s.pushed q ++ [message]) }
    let m := m.append message
    if m.inGlobal = false then (s.setQueue q { m with inGlobal := true }).globalmqPush q
    else some (s.setQueue q m)

/-- `skynet_mq_pop`, and whether there was a message. -/
def mqPop (s : Shared α) (q : ℕ) : Option (Shared α × Bool) :=
  match s.mq q with
  | none   => none
  | some m =>
    match m.pop with
    | (m, none)                => some (s.setQueue q m, false)
    | (m, some (some message)) =>
      some ({ s.setQueue q m with
        taken := Function.update s.taken q (s.taken q ++ [message]) }, true)
    | (_, some none)           => none

/-- `skynet_mq_mark_release`. -/
def mqMarkRelease (s : Shared α) (q : ℕ) : Option (Shared α) :=
  match s.mq q with
  | none   => none
  | some m =>
    if m.release then none
    else if m.inGlobal then some (s.setQueue q { m with release := true })
    else (s.setQueue q { m with release := true }).globalmqPush q

/-- `skynet_mq_release` up to `_drop_queue`, and whether that is next. -/
def mqRelease (s : Shared α) (q : ℕ) : Option (Shared α × Bool) :=
  match s.mq q with
  | none   => none
  | some m =>
    if m.release then some (s, true)
    else
      match s.globalmqPush q with
      | some s => some (s, false)
      | none   => none

/-- `_release`, of a queue that is not in the global one. -/
def release (s : Shared α) (q : ℕ) : Option (Shared α) :=
  if s.Q.next q = none then some { s with mq := Function.update s.mq q none } else none

/-- A round of `_drop_queue`, and whether it was the last. -/
def dropQueue (s : Shared α) (q : ℕ) : Option (Shared α × Bool) :=
  match s.mqPop q with
  | some (s, true)  => some (s, false)
  | some (s, false) =>
    match s.release q with
    | some s => some (s, true)
    | none   => none
  | none            => none

/-- `skynet_handle_grab`. -/
def handleGrab (s : Shared α) (handle : ℕ) : Shared α × Option ℕ :=
  match s.slot handle with
  | some c => ({ s with ref := Function.update s.ref c (s.ref c + 1) }, some c)
  | none   => (s, none)

/-- `skynet_handle_retire`, and the context whose reference it now has. -/
def handleRetire (s : Shared α) (handle : ℕ) : Shared α × Option ℕ :=
  ({ s with slot := Function.update s.slot handle none }, s.slot handle)

/-- The counting of `skynet_context_release`, and whether that was the last reference. -/
def contextRelease (s : Shared α) (c : ℕ) : Shared α × Bool :=
  ({ s with ref := Function.update s.ref c (s.ref c - 1) }, s.ref c - 1 == 0)

/-- `skynet_context_new` up to the initialisation, with a handle that `skynet_handle_register` found
free.  A handle is known to others once there is a queue. -/
def contextNew (s : Shared α) (handle : ℕ) : Option (Shared α) :=
  if s.slot handle = none then
    some { s.setQueue s.created (MessageQueue.create handle) with
      slot := Function.update s.slot handle (some s.created)
      ref := Function.update s.ref s.created 2
      created := s.created + 1 }
  else none

end Shared

/-! ### A thread -/

/-- Where a thread is.  A `k` is what it does after it is done with a context or a queue. -/
inductive Thread where
  /-- In the loop of `thread_worker`, or anywhere out of the modelled code. -/
  | loop (q : Option ℕ)
  /-- Before `return skynet_globalmq_pop()`. -/
  | fetch
  /-- With a reference to a context. -/
  | grabbed (c : ℕ)
  /-- Before `skynet_context_release`. -/
  | releasing (c : ℕ) (k : Thread)
  /-- In `delete_context`, before `skynet_mq_mark_release`. -/
  | deleting (c : ℕ) (k : Thread)
  /-- In `skynet_context_new`, at the initialisation. -/
  | launching (handle c : ℕ)
  /-- In `skynet_context_new`, before `skynet_globalmq_push`. -/
  | publishing (q : ℕ)
  /-- Before `skynet_handle_retire`. -/
  | retiring (handle : ℕ) (k : Thread)
  /-- Before `skynet_mq_release`. -/
  | abandoning (q : ℕ) (k : Thread)
  /-- In `_drop_queue`. -/
  | dropping (q : ℕ) (k : Thread)
  /-- In the loop of `skynet_context_message_dispatch`, before its condition. -/
  | dispatching (q c i n : ℕ)
  /-- In that loop, with a message. -/
  | popped (q c i n : ℕ)
  /-- After it, before `q` is pushed back. -/
  | pushingBack (q c nq : ℕ)
  deriving DecidableEq

/-- What a thread is asked to do, where that is not given by where it is. -/
inductive Action (α : Type*) where
  | next
  | grab (handle : ℕ)
  | push (message : α)
  | release
  | retire (handle : ℕ)
  | launch (handle : ℕ)
  | initialise (ok : Bool)

variable {α : Type*}

/-- The thread that gives up its reference to `c`. -/
def releaseContext (s : Shared α) (c : ℕ) (k : Thread) : Shared α × Thread :=
  match s.contextRelease c with
  | (s, true)  => (s, .deleting c k)
  | (s, false) => (s, k)

/-- The thread that retires a handle. -/
def retireHandle (s : Shared α) (handle : ℕ) (k : Thread) : Shared α × Thread :=
  match s.handleRetire handle with
  | (s, some c) => (s, .releasing c k)
  | (s, none)   => (s, k)

/-- The thread that takes a queue from the global list. -/
def fetchQueue (s : Shared α) : Option (Shared α × Thread) :=
  match s.globalmqPop with
  | some (s, q) => some (s, .loop q)
  | none        => none

/-- One step of a thread. -/
def advance (weight : ℤ) (s : Shared α) : Thread → Action α → Option (Shared α × Thread)
  | .loop none, .grab handle =>
    match s.handleGrab handle with
    | (s, some c) => some (s, .grabbed c)
    | (s, none)   => some (s, .loop none)
  | .grabbed c, .push message =>
    match s.mqPush c message with
    | some s => some (s, .grabbed c)
    | none   => none
  | .grabbed c, .release => some (releaseContext s c (.loop none))
  | .loop none, .retire handle => some (retireHandle s handle (.loop none))
  | .loop none, .launch handle =>
    match s.contextNew handle with
    | some s' => some (s', .launching handle s.created)
    | none    => none
  | .launching _ c, .initialise true => some (releaseContext s c (.publishing c))
  | .launching handle c, .initialise false =>
    some (releaseContext s c (.retiring handle (.abandoning c (.loop none))))
  | .publishing q, .next =>
    match s.globalmqPush q with
    | some s => some (s, .loop none)
    | none   => none
  | .releasing c k, .next => some (releaseContext s c k)
  | .deleting c k, .next =>
    match s.mqMarkRelease c with
    | some s => some (s, k)
    | none   => none
  | .retiring handle k, .next => some (retireHandle s handle k)
  | .abandoning q k, .next =>
    match s.mqRelease q with
    | some (s, true)  => some (s, .dropping q k)
    | some (s, false) => some (s, k)
    | none            => none
  | .dropping q k, .next =>
    match s.dropQueue q with
    | some (s, true)  => some (s, k)
    | some (s, false) => some (s, .dropping q k)
    | none            => none
  | .loop none, .next => fetchQueue s
  | .fetch, .next => fetchQueue s
  | .loop (some q), .next =>
    match s.mq q with
    | none   => none
    | some m =>
      match s.handleGrab m.handle with
      | (s, some c) => some (s, .dispatching q c 0 1)
      | (s, none)   => some (s, .abandoning q .fetch)
  | .dispatching q c i n, .next =>
    if i < n then
      match s.mqPop q with
      | some (s, true)  => some (s, .popped q c i n)
      | some (s, false) => some (s, .releasing c .fetch)
      | none            => none
    else if q = c then
      match s.globalmqPop with
      | some (s, some nq) => some (s, .pushingBack q c nq)
      | some (s, none)    => some (s, .releasing c (.loop (some q)))
      | none              => none
    else none
  | .popped q c i n, .next =>
    match s.mq q with
    | none   => none
    | some m =>
      let n := if i = 0 ∧ 0 ≤ weight then m.length >>> weight.toNat else n
      some (s.setQueue q m.takeOverload.1, .dispatching q c (i + 1) n)
  | .pushingBack q c nq, .next =>
    match s.globalmqPush q with
    | some s => some (s, .releasing c (.loop (some nq)))
    | none   => none
  | _, _ => none

/-- The process. -/
structure Process (α : Type*) where
  shared : Shared α
  threads : List Thread

/-- Thread `i` makes a step. -/
def step (weight : ℕ → ℤ) (p : Process α) (a : ℕ × Action α) : Option (Process α) :=
  match p.threads[a.1]? with
  | none   => none
  | some t =>
    match advance (weight a.1) p.shared t a.2 with
    | some (s, t') => some ⟨s, p.threads.set a.1 t'⟩
    | none         => none

/-- A run, any thread at any time. -/
def run (weight : ℕ → ℤ) (p : Process α) : List (ℕ × Action α) → Option (Process α)
  | []      => some p
  | a :: as =>
    match step weight p a with
    | some p => run weight p as
    | none   => none

/-- `n` threads, and nothing created yet. -/
def start (α : Type*) (n : ℕ) : Process α := ⟨Shared.init, List.replicate n (.loop none)⟩

end SourceLibs.SkynetMq
