import SourceLibs.Support.Ring

/-!
# Redis — the replication backlog

`replication.c`.  A master keeps the newest bytes of the replication stream in a ring, so that a slave
that was away for a while can be sent what it missed.  A byte is known by its offset in the stream;
`master_repl_offset` is the offset of the newest one.

`zmalloc` is a parameter: what is in a fresh buffer is not known.  Offsets are integers without bound.

* `feedReplicationBacklog_window`, `resizeReplicationBacklog_window`: the ring stays a window on the
  stream.
* `addReplyReplicationBacklog_window`: what is read from it.
* `replicationBacklog_run`: both, over every run.
-/

namespace SourceLibs.Replication
open List Memory SourceLibs.Ring

def configReplBacklogMinSize : ℤ := 1024 * 16

/-- The fields of `server` that belong to the backlog. -/
structure Server where
  replBacklog : Option (List UInt8)
  replBacklogSize : ℕ
  replBacklogHistlen : ℕ
  replBacklogIdx : ℕ
  replBacklogOff : ℤ
  masterReplOffset : ℤ

variable (zmalloc : ℕ → ℕ → UInt8)

/-- A buffer of `n` bytes. -/
def alloc (n : ℕ) : List UInt8 := (List.range n).map (zmalloc n)

/-- `createReplicationBacklog`, when there is no backlog. -/
def createReplicationBacklog (s : Server) : Server :=
  { s with
    replBacklog := some (alloc zmalloc s.replBacklogSize)
    replBacklogHistlen := 0
    replBacklogIdx := 0
    masterReplOffset := s.masterReplOffset + 1
    replBacklogOff := s.masterReplOffset + 1 + 1 }

/-- `resizeReplicationBacklog`: what was in it is lost. -/
def resizeReplicationBacklog (s : Server) (newsize : ℤ) : Server :=
  let newsize := if newsize < configReplBacklogMinSize then configReplBacklogMinSize else newsize
  if (s.replBacklogSize : ℤ) = newsize then s
  else
    let s := { s with replBacklogSize := newsize.toNat }
    match s.replBacklog with
    | none => s
    | some _ =>
      { s with
        replBacklog := some (alloc zmalloc s.replBacklogSize)
        replBacklogHistlen := 0
        replBacklogIdx := 0
        replBacklogOff := s.masterReplOffset + 1 }

/-- The loop of `feedReplicationBacklog`; every round but the last takes at least one byte. -/
def feedLoop (size : ℕ) : ℕ → List UInt8 → ℕ → ℕ → List UInt8 → List UInt8 × ℕ × ℕ
  | 0, backlog, idx, histlen, _ => (backlog, idx, histlen)
  | fuel + 1, backlog, idx, histlen, p =>
    if p.length = 0 then (backlog, idx, histlen)
    else
      let thislen := size - idx
      let thislen := if thislen > p.length then p.length else thislen
      let backlog := overwrite backlog idx (p.take thislen)
      let idx := idx + thislen
      let idx := if idx = size then 0 else idx
      feedLoop size fuel backlog idx (histlen + thislen) (p.drop thislen)

/-- `feedReplicationBacklog`; without a backlog it is not called. -/
def feedReplicationBacklog (s : Server) (p : List UInt8) : Server :=
  match s.replBacklog with
  | none => s
  | some backlog =>
    let masterReplOffset := s.masterReplOffset + p.length
    let (backlog, idx, histlen) :=
      feedLoop s.replBacklogSize (p.length + 1) backlog s.replBacklogIdx s.replBacklogHistlen p
    let histlen := if histlen > s.replBacklogSize then s.replBacklogSize else histlen
    { s with
      replBacklog := some backlog
      replBacklogIdx := idx
      replBacklogHistlen := histlen
      masterReplOffset := masterReplOffset
      replBacklogOff := masterReplOffset - histlen + 1 }

/-- The loop of `addReplyReplicationBacklog`. -/
def replyLoop (backlog : List UInt8) (size : ℕ) : ℕ → ℕ → ℕ → List UInt8
  | 0, _, _ => []
  | fuel + 1, j, len =>
    if len = 0 then []
    else
      let thislen := if size - j < len then size - j else len
      (backlog.drop j).take thislen ++ replyLoop backlog size fuel 0 (len - thislen)

/-- `addReplyReplicationBacklog`: the bytes sent and the value returned. -/
def addReplyReplicationBacklog (s : Server) (offset : ℤ) : List UInt8 × ℕ :=
  if s.replBacklogHistlen = 0 then ([], 0)
  else
    let skip := (offset - s.replBacklogOff).toNat
    let j := (s.replBacklogIdx + (s.replBacklogSize - s.replBacklogHistlen)) % s.replBacklogSize
    let j := (j + skip) % s.replBacklogSize
    let len := s.replBacklogHistlen - skip
    (replyLoop (s.replBacklog.getD []) s.replBacklogSize len j len, s.replBacklogHistlen - skip)

/-- The part of `masterTryPartialResynchronization` that looks at the offset asked for. -/
def masterTryPartialResynchronization (s : Server) (psyncOffset : ℤ) : Option (List UInt8 × ℕ) :=
  if s.replBacklog = none ∨ psyncOffset < s.replBacklogOff ∨
      psyncOffset > s.replBacklogOff + s.replBacklogHistlen then none
  else some (addReplyReplicationBacklog s psyncOffset)

/-- A call. -/
inductive Op where
  | feed (p : List UInt8)
  | resize (newsize : ℤ)

/-- One call. -/
def step (s : Server) : Op → Server
  | .feed p => feedReplicationBacklog s p
  | .resize newsize => resizeReplicationBacklog zmalloc s newsize

/-- The bytes of the stream. -/
def Op.bytes : Op → List UInt8
  | .feed p => p
  | .resize _ => []

/-- The backlog is a window on the stream `h` that ends at `master_repl_offset`. -/
structure Window (s : Server) (h : List UInt8) : Prop where
  off : s.replBacklogOff = s.masterReplOffset - s.replBacklogHistlen + 1
  ring : ∃ backlog, s.replBacklog = some backlog ∧ backlog.length = s.replBacklogSize ∧
    Holds backlog s.replBacklogIdx s.replBacklogHistlen h

variable {zmalloc} {s : Server} {h : List UInt8}

theorem length_alloc (n : ℕ) : (alloc zmalloc n).length = n := by
  rw [alloc, length_map, length_range]

theorem window_alloc (hsize : 0 < s.replBacklogSize)
    (hb : s.replBacklog = some (alloc zmalloc s.replBacklogSize)) (hh : s.replBacklogHistlen = 0)
    (hi : s.replBacklogIdx = 0) (ho : s.replBacklogOff = s.masterReplOffset + 1) : Window s h := by
  refine ⟨by rw [ho, hh]; simp, _, hb, length_alloc _, ?_⟩
  rw [hh, hi]
  exact .empty (by rwa [length_alloc]) h

theorem resizeReplicationBacklog_window (hw : Window s h) (newsize : ℤ) :
    Window (resizeReplicationBacklog zmalloc s newsize) h := by
  obtain ⟨backlog, hb, -, -⟩ := hw.ring
  rw [resizeReplicationBacklog]
  dsimp only
  generalize hnew : (if newsize < configReplBacklogMinSize then configReplBacklogMinSize else newsize)
    = size
  have hpos : 0 < size := by
    have hmin : configReplBacklogMinSize = 16384 := rfl
    rw [← hnew]
    split <;> omega
  split
  · exact hw
  · rw [hb]
    exact window_alloc (Int.lt_toNat.mpr hpos) rfl rfl rfl rfl

/-- **The loop**: the ring takes the bytes one block after the other. -/
theorem feedLoop_holds {size : ℕ} (fuel : ℕ) :
    ∀ {backlog h p : List UInt8} {idx histlen : ℕ}, p.length < fuel → backlog.length = size →
      Holds backlog idx (min histlen size) h →
      let r := feedLoop size fuel backlog idx histlen p
      r.1.length = size ∧ r.2.2 = histlen + p.length ∧
        Holds r.1 r.2.1 (min r.2.2 size) (h ++ p) := by
  induction fuel with
  | zero => exact fun hp => absurd hp (Nat.not_lt_zero _)
  | succ fuel ih =>
    intro backlog h p idx histlen hp hlen hh
    rw [feedLoop]
    by_cases hz : p.length = 0
    · rw [if_pos hz, length_eq_zero_iff.mp hz, append_nil]
      exact ⟨hlen, rfl, hh⟩
    rw [if_neg hz]
    dsimp only
    have hlt := hh.lt
    generalize hthis : (if size - idx > p.length then p.length else size - idx) = thislen
    have hle : thislen ≤ p.length ∧ idx + thislen ≤ size ∧ 0 < thislen := by
      rw [← hthis]
      split <;> omega
    have htake : (p.take thislen).length = thislen := length_take_of_le hle.1
    have hwrite := hh.write (c := p.take thislen) (by omega) (by omega)
    rw [htake, hlen] at hwrite
    have hmin : min (min histlen size + thislen) size = min (histlen + thislen) size := by omega
    rw [hmin] at hwrite
    have hlen' : (overwrite backlog idx (p.take thislen)).length = size := by
      rw [length_overwrite (by omega), hlen]
    obtain ⟨h₁, h₂, h₃⟩ := ih (p := p.drop thislen) (by rw [length_drop]; omega) hlen' hwrite
    refine ⟨h₁, ?_, ?_⟩
    · rw [h₂, length_drop]
      omega
    · rwa [List.append_assoc, take_append_drop] at h₃

theorem feedReplicationBacklog_window (hw : Window s h) (p : List UInt8) :
    Window (feedReplicationBacklog s p) (h ++ p) := by
  obtain ⟨backlog, hb, hlen, hh⟩ := hw.ring
  have hmin : min s.replBacklogHistlen s.replBacklogSize = s.replBacklogHistlen :=
    min_eq_left (hlen ▸ hh.fits)
  obtain ⟨h₁, -, h₃⟩ := feedLoop_holds (p.length + 1) (Nat.lt_succ_self p.length) hlen
    (hmin.symm ▸ hh)
  rw [feedReplicationBacklog, hb]
  dsimp only
  generalize feedLoop s.replBacklogSize (p.length + 1) backlog s.replBacklogIdx s.replBacklogHistlen p
    = r at *
  refine ⟨rfl, r.1, rfl, h₁, ?_⟩
  have hclip : (if r.2.2 > s.replBacklogSize then s.replBacklogSize else r.2.2) =
      min r.2.2 s.replBacklogSize := by
    split <;> omega
  rw [hclip]
  exact h₃

theorem replyLoop_zero (backlog : List UInt8) (size fuel j : ℕ) :
    replyLoop backlog size fuel j 0 = [] := by
  cases fuel with
  | zero => rw [replyLoop]
  | succ fuel => rw [replyLoop, if_pos rfl]

theorem replyLoop_block (backlog : List UInt8) {size fuel j len : ℕ} (hle : len ≤ size - j)
    (hfuel : len ≤ fuel) : replyLoop backlog size fuel j len = (backlog.drop j).take len := by
  cases fuel with
  | zero => rw [Nat.le_zero.mp hfuel, replyLoop, take_zero]
  | succ fuel =>
    rw [replyLoop]
    by_cases hz : len = 0
    · rw [if_pos hz, hz, take_zero]
    · rw [if_neg hz, if_neg (by omega)]
      dsimp only
      rw [Nat.sub_self, replyLoop_zero, append_nil]

theorem replyLoop_holds {backlog : List UInt8} {idx n : ℕ} (hh : Holds backlog idx n h) :
    replyLoop backlog backlog.length n ((idx + backlog.length - n) % backlog.length) n =
      h.drop (h.length - n) := by
  have hlt := hh.lt
  have hfits := hh.fits
  by_cases hn : n ≤ idx
  · -- One block.
    have hmod : (idx + backlog.length - n) % backlog.length = idx - n := by
      rw [show idx + backlog.length - n = idx - n + backlog.length by omega, Nat.add_mod_right,
        Nat.mod_eq_of_lt (by omega)]
    rw [hmod, ← hh.read hn, replyLoop_block backlog (by omega) le_rfl]
  · -- Up to the end, and then from the start.
    have hmod : (idx + backlog.length - n) % backlog.length = idx + backlog.length - n :=
      Nat.mod_eq_of_lt (by omega)
    have hlast : (backlog.drop (idx + backlog.length - n)).length = n - idx := by
      rw [length_drop]
      omega
    rw [hmod, ← hh.read_wrap (by omega)]
    by_cases hidx : idx = 0
    · rw [replyLoop_block backlog (by omega) le_rfl, take_of_length_le (by omega), hidx,
        take_zero, append_nil]
    · obtain ⟨m, rfl⟩ : ∃ m, n = m + 1 := ⟨n - 1, by omega⟩
      have hrest : m + 1 - (backlog.length - (idx + backlog.length - (m + 1))) = idx := by omega
      rw [replyLoop, if_neg (by omega), if_pos (by omega)]
      dsimp only
      rw [hrest, take_of_length_le (by omega), replyLoop_block backlog (by omega) (by omega),
        drop_zero]

/-- **A partial resynchronisation sends the stream** from the offset asked for. -/
theorem addReplyReplicationBacklog_window (hw : Window s h) {offset : ℤ}
    (hle : s.replBacklogOff ≤ offset) (hge : offset ≤ s.replBacklogOff + s.replBacklogHistlen) :
    let n := (s.masterReplOffset + 1 - offset).toNat
    n ≤ h.length ∧ addReplyReplicationBacklog s offset = (h.drop (h.length - n), n) := by
  intro n
  obtain ⟨backlog, hb, hlen, hh⟩ := hw.ring
  have hoff := hw.off
  have hskip : (offset - s.replBacklogOff).toNat = s.replBacklogHistlen - n := by omega
  have hn : n ≤ s.replBacklogHistlen := by omega
  refine ⟨Nat.le_trans hn hh.le, ?_⟩
  rw [addReplyReplicationBacklog]
  by_cases hz : s.replBacklogHistlen = 0
  · rw [if_pos hz, show n = 0 by omega, Nat.sub_zero, drop_length]
  · rw [if_neg hz]
    dsimp only
    have hlen' : s.replBacklogHistlen - (s.replBacklogHistlen - n) = n := by omega
    rw [hskip, hlen', hb, Option.getD_some, ← hlen, Nat.mod_add_mod]
    have hfits := hh.fits
    have hj : s.replBacklogIdx + (backlog.length - s.replBacklogHistlen) +
        (s.replBacklogHistlen - n) = s.replBacklogIdx + backlog.length - n := by omega
    rw [hj, replyLoop_holds (hh.mono hn)]

theorem step_window (hw : Window s h) (op : Op) : Window (step zmalloc s op) (h ++ op.bytes) := by
  cases op with
  | feed p => exact feedReplicationBacklog_window hw p
  | resize newsize =>
    rw [Op.bytes, append_nil]
    exact resizeReplicationBacklog_window hw newsize

theorem run_window (ops : List Op) :
    ∀ {s : Server} {h : List UInt8}, Window s h →
      Window (ops.foldl (step zmalloc) s) (h ++ ops.flatMap Op.bytes) := by
  induction ops with
  | nil =>
    intro s h hw
    rw [flatMap_nil, append_nil]
    exact hw
  | cons op ops ih =>
    intro s h hw
    rw [flatMap_cons, ← List.append_assoc]
    exact ih (step_window hw op)

theorem masterReplOffset_run (ops : List Op) :
    ∀ {s : Server} {h : List UInt8}, Window s h →
      (ops.foldl (step zmalloc) s).masterReplOffset =
        s.masterReplOffset + (ops.flatMap Op.bytes).length := by
  induction ops with
  | nil => exact fun _ => (Int.add_zero _).symm
  | cons op ops ih =>
    intro s h hw
    have hstep : (step zmalloc s op).masterReplOffset = s.masterReplOffset + op.bytes.length := by
      obtain ⟨backlog, hb, -, -⟩ := hw.ring
      cases op with
      | feed p =>
        rw [step, feedReplicationBacklog, hb]
        rfl
      | resize newsize =>
        rw [step, resizeReplicationBacklog, hb]
        dsimp only
        generalize (if newsize < _ then _ else newsize) = size
        split <;> exact (Int.add_zero _).symm
    rw [foldl_cons, ih (step_window hw op), hstep, flatMap_cons, length_append]
    omega

/-- **The backlog is a window on the stream** in every run from a new backlog: `master_repl_offset`
counts the bytes fed, and a slave is sent exactly those from the offset it asks for. -/
theorem replicationBacklog_run (zmalloc : ℕ → ℕ → UInt8) (s₀ : Server)
    (hsize : 0 < s₀.replBacklogSize) (ops : List Op) :
    let stream := ops.flatMap Op.bytes
    let s := ops.foldl (step zmalloc) (createReplicationBacklog zmalloc s₀)
    s.masterReplOffset = s₀.masterReplOffset + 1 + stream.length ∧
    s.replBacklogOff = s.masterReplOffset - s.replBacklogHistlen + 1 ∧
    s.replBacklogHistlen ≤ s.replBacklogSize ∧ s.replBacklogIdx < s.replBacklogSize ∧
    ∀ psyncOffset : ℤ, s.replBacklogOff ≤ psyncOffset →
      psyncOffset ≤ s.replBacklogOff + s.replBacklogHistlen →
      ∃ n : ℕ, (n : ℤ) = s.masterReplOffset - psyncOffset + 1 ∧ n ≤ stream.length ∧
        masterTryPartialResynchronization s psyncOffset = some (stream.drop (stream.length - n), n) := by
  intro stream s
  have hw₀ : Window (createReplicationBacklog zmalloc s₀) [] := window_alloc hsize rfl rfl rfl rfl
  have hw : Window s stream := run_window ops hw₀
  obtain ⟨backlog, hb, hlen, hh⟩ := hw.ring
  refine ⟨masterReplOffset_run ops hw₀, hw.off, hlen ▸ hh.fits, hlen ▸ hh.lt,
    fun psyncOffset hle hge => ?_⟩
  obtain ⟨hn, hreply⟩ := addReplyReplicationBacklog_window hw hle hge
  refine ⟨_, ?_, hn, ?_⟩
  · have hoff := hw.off
    omega
  · rw [masterTryPartialResynchronization, if_neg, hreply]
    rintro (hnone | hlt | hgt)
    · rw [hb] at hnone
      cases hnone
    · omega
    · omega

/-- Nine bytes go around a ring of four twice. -/
theorem replicationBacklog_run_wrap :
    let s := [Op.feed [1, 2, 3], .feed [4, 5, 6, 7, 8, 9]].foldl (step fun _ _ => 0)
      (createReplicationBacklog (fun _ _ => 0) ⟨none, 4, 0, 0, 0, 0⟩)
    s.replBacklogOff = 7 ∧ s.replBacklogHistlen = 4 ∧
      ∃ n : ℕ, (n : ℤ) = s.masterReplOffset - 8 + 1 ∧ n ≤ 9 ∧
        masterTryPartialResynchronization s 8 = some ([1, 2, 3, 4, 5, 6, 7, 8, 9].drop (9 - n), n) := by
  intro s
  have hrun := replicationBacklog_run (fun _ _ => 0) ⟨none, 4, 0, 0, 0, 0⟩ (by decide)
    [Op.feed [1, 2, 3], .feed [4, 5, 6, 7, 8, 9]]
  exact ⟨by decide, by decide, hrun.2.2.2.2 8 (by decide) (by decide)⟩

end SourceLibs.Replication
