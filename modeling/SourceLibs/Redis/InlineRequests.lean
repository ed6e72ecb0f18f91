import SourceLibs.Redis.Networking
import SourceLibs.Support.Lines

/-!
# Redis — inline requests

`processInlineBuffer` looks for a line feed, goes back over a carriage return before it, and removes what
is before that and two bytes more.  Behind a line feed alone the second of the two belongs to the next
request.

* `drop_eq_sdsrange`: what `sdsrange` leaves.
* `inline_frame_iff`: when a call removes its line and nothing else.
* `readQueries_lines`: reads in a row, while that is so, execute the lines of the stream.
-/

namespace SourceLibs.RedisNetworking
open List Lines

/-! ### `sdsrange` -/

/-- `sdsrange(s, start, end)`, for a string shorter than `INT_MAX`. -/
def sdsrange (s : List UInt8) (start stop : ℤ) : List UInt8 :=
  if s.length = 0 then s
  else
    let start := if start < 0 then max (s.length + start) 0 else start
    let stop := if stop < 0 then max (s.length + stop) 0 else stop
    if start > stop then []
    else if start ≥ s.length then []
    else
      let stop := if stop ≥ s.length then (s.length : ℤ) - 1 else stop
      if start > stop then [] else (s.drop start.toNat).take (stop - start + 1).toNat

/-- **The rest of a string** is what `sdsrange` leaves. -/
theorem drop_eq_sdsrange (s : List UInt8) (n : ℕ) : s.drop n = sdsrange s n (-1) := by
  rw [sdsrange]
  by_cases hs : s.length = 0
  · rw [if_pos hs, eq_nil_of_length_eq_zero hs, drop_nil]
  · have hstop : max ((s.length : ℤ) + -1) 0 = s.length - 1 := by omega
    simp only [if_neg hs, if_neg (show ¬ (n : ℤ) < 0 by omega), if_pos (show (-1 : ℤ) < 0 by omega),
      hstop, Int.toNat_natCast]
    by_cases hn : n < s.length
    · rw [if_neg (by omega), if_neg (by omega), if_neg (show ¬ (s.length : ℤ) - 1 ≥ s.length by omega),
        if_neg (by omega), take_of_length_le]
      rw [length_drop]
      omega
    · rw [if_pos (by omega), drop_eq_nil_of_le (by omega)]

theorem finishCommand_frame (c : Client) : (finishCommand c).replies = c.replies ∧
    (finishCommand c).closeAfterReply = c.closeAfterReply ∧
    (finishCommand c).querybuf = c.querybuf := by
  rw [finishCommand]
  split <;> exact ⟨rfl, rfl, rfl⟩

/-! ### After an error -/

section Closing
variable {sdssplitargs : List UInt8 → Option (List (List UInt8))} {c : Client}

theorem processInputBuffer_closing (h : c.closeAfterReply = true) :
    processInputBuffer sdssplitargs c = some c := by
  rw [processInputBuffer, inputLoop, h]
  split
  · rfl
  · rfl

/-- A client that is about to be closed still reads, and executes nothing. -/
theorem queryRead_closing (h : c.closeAfterReply = true) (bytes : List UInt8) :
    queryRead sdssplitargs c bytes = .error .freed ∨
      queryRead sdssplitargs c bytes = .ok { c with querybuf := c.querybuf ++ bytes } := by
  rw [queryRead]
  dsimp only
  split
  · exact .inl rfl
  · have hclosing : processInputBuffer sdssplitargs { c with querybuf := c.querybuf ++ bytes } =
        some { c with querybuf := c.querybuf ++ bytes } := processInputBuffer_closing h
    rw [hclosing]
    exact .inr rfl

/-- An error that was sent stays, and so do the commands. -/
theorem readQueries_closing (reads : List (List UInt8)) : ∀ {c : Client},
    c.closeAfterReply = true → readQueries sdssplitargs c reads = .error .freed ∨
      ∃ c', readQueries sdssplitargs c reads = .ok c' ∧ c'.replies = c.replies ∧
        c'.commands = c.commands := by
  induction reads with
  | nil => exact fun _ => .inr ⟨_, rfl, rfl, rfl⟩
  | cons bytes reads ih =>
    intro c h
    rw [readQueries]
    rcases queryRead_closing h bytes with hread | hread
    · rw [hread]
      exact .inl rfl
    · rw [hread]
      exact ih h

end Closing

/-! ### One call -/

/-- A line without the carriage return at its end. -/
def chomp (line : List UInt8) : List UInt8 :=
  if line.getLast? = some cr then line.dropLast else line

section

variable {sdssplitargs : List UInt8 → Option (List (List UInt8))} {c : Client}
variable {line rest part : List UInt8}

theorem strchr_line (hlf : lf ∉ line) (hnul : 0 ∉ line) :
    strchr lf (line ++ lf :: rest) = some line.length := by
  induction line with
  | nil => rfl
  | cons b line ih =>
    rw [mem_cons, not_or] at hlf hnul
    rw [List.cons_append, strchr, if_neg (Ne.symm hlf.1), if_neg (Ne.symm hnul.1), ih hlf.2 hnul.2]
    rfl

theorem strchr_part (hlf : lf ∉ part) : strchr lf part = none := by
  induction part with
  | nil => rfl
  | cons b part ih =>
    rw [mem_cons, not_or] at hlf
    rw [strchr, if_neg (Ne.symm hlf.1), ih hlf.2]
    split <;> rfl

/-- **The end of the line** as `processInlineBuffer` finds it. -/
theorem querylen_line (line rest : List UInt8) :
    (if line.length ≠ 0 ∧ (line ++ lf :: rest).getD (line.length - 1) 0 = cr then line.length - 1
      else line.length) = (chomp line).length := by
  induction line using reverseRecOn with
  | nil => rfl
  | append_singleton l b =>
    have hbyte : (l ++ [b] ++ lf :: rest).getD ((l ++ [b]).length - 1) 0 = b := by
      rw [length_append, length_singleton, Nat.add_sub_cancel, List.append_assoc,
        getD_eq_getElem?_getD, List.getElem?_append_right (le_refl _), Nat.sub_self]
      rfl
    have hne : (l ++ [b]).length ≠ 0 := by
      rw [length_append, length_singleton]
      omega
    rw [hbyte, chomp, getLast?_append, getLast?_singleton, Option.some_or,
      dropLast_concat, length_append, length_singleton, Nat.add_sub_cancel]
    by_cases hb : b = cr
    · rw [if_pos ⟨by omega, hb⟩, if_pos (by rw [hb])]
    · rw [if_neg (fun h => hb h.2), if_neg (fun h => hb (Option.some.inj h)),
        length_append, length_singleton]

theorem take_chomp (line rest : List UInt8) :
    (line ++ rest).take (chomp line).length = chomp line := by
  rw [chomp]
  split
  · rw [length_dropLast, take_append_of_le_length (by omega), dropLast_eq_take]
  · rw [take_left]

/-- What is left behind a line. -/
def afterLine (line rest : List UInt8) : List UInt8 :=
  if line.getLast? = some cr then rest else rest.drop 1

theorem drop_chomp (line rest : List UInt8) :
    (line ++ lf :: rest).drop ((chomp line).length + 2) = afterLine line rest := by
  rw [chomp, afterLine]
  split
  · next h =>
      have hpos : 0 < line.length := by
        cases line with
        | nil => cases h
        | cons b line => exact Nat.succ_pos _
      rw [length_dropLast, show line.length - 1 + 2 = line.length + 1 by omega,
        ← drop_drop, drop_left]
      rfl
  · rw [← drop_drop, drop_left]
    rfl

/-- **A call** on a buffer that begins with a line. -/
theorem processInlineBuffer_line (hlf : lf ∉ line) (hnul : 0 ∉ line)
    (hbuf : c.querybuf = line ++ lf :: rest) :
    processInlineBuffer sdssplitargs c =
      match sdssplitargs (chomp line) with
      | none => (setProtocolError c .unbalancedQuotes 0, false)
      | some argv =>
        ({ c with
           querybuf := afterLine line rest
           argv := argv.filter (· ≠ []) }, true) := by
  rw [processInlineBuffer, hbuf, strchr_line hlf hnul]
  cases hargs : sdssplitargs (chomp line) with
  | none => simp only [querylen_line, take_chomp, hargs]
  | some argv => simp only [querylen_line, take_chomp, drop_chomp, hargs]

theorem processInlineBuffer_part (hlf : lf ∉ c.querybuf) (hlen : c.querybuf.length ≤ protoInlineMaxSize) :
    processInlineBuffer sdssplitargs c = (c, false) := by
  rw [processInlineBuffer, strchr_part hlf]
  exact if_neg (by omega)

theorem afterLine_eq_iff : afterLine line rest = rest ↔ line.getLast? = some cr ∨ rest = [] := by
  rw [afterLine]
  split
  · next h => exact ⟨fun _ => .inl h, fun _ => rfl⟩
  · next h =>
      rw [or_iff_right h]
      constructor
      · intro hdrop
        have hlen := congrArg length hdrop
        rw [length_drop] at hlen
        cases rest with
        | nil => rfl
        | cons b rest =>
          rw [length_cons] at hlen
          omega
      · rintro rfl
        rfl

end

/-! ### Lines in a row -/

section

variable (sdssplitargs : List UInt8 → Option (List (List UInt8)))

/-- The command of a line; there is none if there are no arguments. -/
def requestOf (argv : List (List UInt8)) : List (List (List UInt8)) :=
  if argv.filter (· ≠ []) = [] then [] else [argv.filter (· ≠ [])]

/-- The commands of the lines, up to one that is an error, and whether there is one. -/
def runLines : List (List UInt8) → List (List (List UInt8)) × Bool
  | [] => ([], false)
  | l :: ls =>
    match sdssplitargs (chomp l) with
    | none => ([], true)
    | some argv => (requestOf argv ++ (runLines ls).1, (runLines ls).2)

variable {sdssplitargs}

variable (sdssplitargs) in
theorem runLines_append (ls ls' : List (List UInt8)) :
    runLines sdssplitargs (ls ++ ls') =
      if (runLines sdssplitargs ls).2 then runLines sdssplitargs ls
      else ((runLines sdssplitargs ls).1 ++ (runLines sdssplitargs ls').1,
        (runLines sdssplitargs ls').2) := by
  induction ls with
  | nil => rfl
  | cons l ls ih =>
    rw [List.cons_append, runLines, runLines, ih]
    cases sdssplitargs (chomp l) with
    | none => rfl
    | some argv =>
      dsimp only
      split
      · rfl
      · rw [List.append_assoc]

variable {ls ls' : List (List UInt8)} {part tail : List UInt8} {c : Client}

/-- What `processInputBuffer` needs of a line: there is no NUL in it, it is not the beginning of a
multibulk request, and it is not too long. -/
structure IsLine (line : List UInt8) : Prop where
  lf : lf ∉ line
  nul : 0 ∉ line
  star : line.head? ≠ some star
  short : line.length ≤ protoInlineMaxSize

/-- A client that is not reading a multibulk request. -/
structure Idle (c : Client) : Prop where
  type : c.reqtype ≠ .multibulk
  flag : c.closeAfterReply = false

/-- How the client is after some lines, with `part` left of the buffer. -/
structure After (c c' : Client) (run : List (List (List UInt8)) × Bool) (part : List UInt8) : Prop where
  commands : c'.commands = c.commands ++ run.1
  running : run.2 = false → Idle c' ∧ c'.querybuf = part ∧ c'.replies = c.replies
  closed : run.2 = true → c'.closeAfterReply = true ∧ c'.replies = c.replies ++ [.unbalancedQuotes]

theorem inline_type (h : Idle c) (hstar : c.querybuf.head? ≠ some star) :
    (if c.reqtype = .unknown then
      { c with reqtype := if c.querybuf.head? = some star then .multibulk else .inline }
      else c) = { c with reqtype := .inline } := by
  rw [if_neg hstar]
  split
  · rfl
  · next hu =>
      have hinline : c.reqtype = .inline := by
        cases ht : c.reqtype with
        | unknown => exact absurd ht hu
        | inline => rfl
        | multibulk => exact absurd ht h.type
      rw [← hinline]

theorem head_line {line : List UInt8} (h : line.head? ≠ some star) (rest : List UInt8) :
    (line ++ lf :: rest).head? ≠ some star := by
  cases line with
  | nil => exact fun h => absurd (Option.some.inj h) (by decide)
  | cons b line => exact h

theorem finishCommand_commands (c : Client) (argv : List (List UInt8)) (buf : List UInt8) :
    (finishCommand { c with querybuf := buf, argv := argv.filter (· ≠ []) }).commands
      = c.commands ++ requestOf argv := by
  rw [finishCommand, requestOf]
  dsimp only
  by_cases h : argv.filter (· ≠ []) = []
  · rw [if_pos h, if_pos h, append_nil]
    rfl
  · rw [if_neg h, if_neg h]
    rfl

theorem finishCommand_type (c : Client) : (finishCommand c).reqtype = .unknown := by
  rw [finishCommand]
  split <;> rfl

variable (sdssplitargs) in
/-- **One call of `processInputBuffer`** executes the lines of the buffer, if behind a line feed alone
there is nothing: the induction is on the lines. -/
theorem inputLoop_lines (ls : List (List UInt8)) : ∀ (fuel : ℕ) (c : Client),
    (∀ l ∈ ls, IsLine l) → IsLine part →
    (∀ done l rest, ls = done ++ l :: rest → l.getLast? = some cr ∨ (rest = [] ∧ part = [])) →
    c.querybuf = join lf ls ++ part → Idle c → c.querybuf.length < fuel →
    ∃ c', inputLoop sdssplitargs fuel c = some c' ∧ After c c' (runLines sdssplitargs ls) part := by
  induction ls with
  | nil =>
    intro fuel c _ hpart _ hbuf hidle hfuel
    cases fuel with
    | zero => exact absurd hfuel (Nat.not_lt_zero _)
    | succ fuel =>
      rw [join, nil_append] at hbuf
      rw [inputLoop]
      by_cases hnil : c.querybuf = []
      · rw [if_pos hnil]
        exact ⟨c, rfl, (append_nil _).symm, fun _ => ⟨hidle, hbuf, rfl⟩,
          fun h => absurd h Bool.false_ne_true⟩
      · rw [if_neg hnil, if_neg (by rw [hidle.flag]; exact Bool.false_ne_true),
          inline_type hidle (hbuf ▸ hpart.star)]
        dsimp only
        rw [processInlineBuffer_part (hbuf ▸ hpart.lf) (hbuf ▸ hpart.short)]
        exact ⟨_, rfl, (append_nil _).symm,
          fun _ => ⟨⟨by simp, hidle.flag⟩, hbuf, rfl⟩, fun h => absurd h Bool.false_ne_true⟩
  | cons l ls ih =>
    intro fuel c hls hpart hends hbuf hidle hfuel
    cases fuel with
    | zero => exact absurd hfuel (Nat.not_lt_zero _)
    | succ fuel =>
      obtain ⟨hl, hrest⟩ := forall_mem_cons.mp hls
      rw [join, List.append_assoc, List.cons_append] at hbuf
      have hnil : c.querybuf ≠ [] := by
        rw [hbuf]
        exact append_ne_nil_of_right_ne_nil _ (cons_ne_nil _ _)
      have hstar : c.querybuf.head? ≠ some star := hbuf ▸ head_line hl.star _
      have hafter : afterLine l (join lf ls ++ part) = join lf ls ++ part := by
        refine afterLine_eq_iff.mpr ((hends [] l ls rfl).imp_right fun h => ?_)
        rw [h.1, h.2]
        rfl
      rw [inputLoop, if_neg hnil, if_neg (by rw [hidle.flag]; exact Bool.false_ne_true),
        inline_type hidle hstar]
      dsimp only
      have hbuf' : ({ c with reqtype := .inline } : Client).querybuf
          = l ++ lf :: (join lf ls ++ part) := hbuf
      rw [processInlineBuffer_line hl.lf hl.nul hbuf', runLines]
      cases sdssplitargs (chomp l) with
      | none =>
        exact ⟨_, rfl, (append_nil _).symm, fun h => absurd h (by simp), fun _ => ⟨rfl, rfl⟩⟩
      | some argv =>
        dsimp only
        rw [hafter]
        let c₁ : Client := { c with
          querybuf := join lf ls ++ part
          reqtype := .inline
          argv := argv.filter (· ≠ []) }
        obtain ⟨hr, hflag, hbuf₁⟩ := finishCommand_frame c₁
        have hidle₁ : Idle (finishCommand c₁) :=
          ⟨by rw [finishCommand_type]; simp, hflag.trans hidle.flag⟩
        have hfuel₁ : (finishCommand c₁).querybuf.length < fuel := by
          rw [hbuf, length_append, length_cons] at hfuel
          rw [hbuf₁]
          exact show (join lf ls ++ part).length < fuel by omega
        have hends₁ : ∀ done l' rest, ls = done ++ l' :: rest →
            l'.getLast? = some cr ∨ (rest = [] ∧ part = []) := by
          rintro done l' rest rfl
          exact hends (l :: done) l' rest rfl
        obtain ⟨c', hloop, hend⟩ := ih fuel _ hrest hpart hends₁ hbuf₁ hidle₁ hfuel₁
        have hcmds : (finishCommand c₁).commands = c.commands ++ requestOf argv :=
          finishCommand_commands { c with reqtype := .inline } argv _
        refine ⟨c', hloop, ?_, fun h => ?_, fun h => ?_⟩
        · rw [hend.commands, hcmds, List.append_assoc]
        · obtain ⟨hidle', hbuf', hr'⟩ := hend.running h
          exact ⟨hidle', hbuf', hr'.trans hr⟩
        · obtain ⟨hclosed, hr'⟩ := hend.closed h
          exact ⟨hclosed, hr'.trans (congrArg (· ++ _) hr)⟩

/-! ### Reads in a row -/

/-- A line feed without a carriage return is the last byte of its read; `seen` was read before. -/
def EndsReads : List UInt8 → List (List UInt8) → Prop
  | _, [] => True
  | seen, bytes :: reads =>
    (∀ a b, bytes = a ++ lf :: b → b ≠ [] → (seen ++ a).getLast? = some cr)
      ∧ EndsReads (seen ++ bytes) reads

theorem IsLine.initial {line : List UInt8} (h : IsLine line) (hp : part <+: line) : IsLine part := by
  obtain ⟨rest, rfl⟩ := hp
  refine ⟨fun hm => h.lf (mem_append_left _ hm), fun hm => h.nul (mem_append_left _ hm), ?_, ?_⟩
  · cases part with
    | nil => exact nofun
    | cons b part => exact h.star
  · have hshort := h.short
    rw [length_append] at hshort
    omega

theorem isLine_part {rest : List UInt8} (hls : ∀ l ∈ ls, IsLine l) (htail : IsLine tail)
    (hpart : lf ∉ part) (h : part ++ rest = join lf ls ++ tail) : IsLine part := by
  cases ls with
  | nil =>
    rw [join, nil_append] at h
    exact htail.initial ⟨rest, h⟩
  | cons l ls =>
    rw [join, List.append_assoc, List.cons_append] at h
    obtain ⟨a, rfl, -⟩ := split_first hpart h
    exact (hls _ mem_cons_self).initial ⟨a, rfl⟩

/-- **The lines of a read** end as `inputLoop_lines` needs it. -/
theorem ends_of_reads {seen before bytes : List UInt8} (hpart : lf ∉ part)
    (hseen : seen = before ++ part) (hbefore : before.getLast? ≠ some cr) {part' : List UInt8}
    (hends : ∀ a b, bytes = a ++ lf :: b → b ≠ [] → (seen ++ a).getLast? = some cr)
    (h : part ++ bytes = join lf ls ++ part') :
    ∀ done l rest, ls = done ++ l :: rest → l.getLast? = some cr ∨ (rest = [] ∧ part' = []) := by
  rintro done l rest rfl
  obtain ⟨a, ha, hbytes⟩ := exists_cut_line hpart h
  by_cases hnil : join lf rest ++ part' = []
  · obtain ⟨hjoin, hpart'⟩ := append_eq_nil_iff.mp hnil
    cases rest with
    | nil => exact .inr ⟨rfl, hpart'⟩
    | cons r rest => exact absurd hjoin (append_ne_nil_of_right_ne_nil _ (cons_ne_nil _ _))
  · have hlast := hends a _ hbytes hnil
    rw [hseen, List.append_assoc, ha, getLast?_append, getLast?_append] at hlast
    cases hl : l.getLast? with
    | some b =>
      rw [hl, Option.some_or, Option.some_or] at hlast
      exact .inl hlast
    | none =>
      rw [hl, Option.none_or, getLast?_join] at hlast
      split at hlast
      · rw [Option.none_or] at hlast
        exact absurd hlast hbefore
      · exact absurd (Option.some.inj hlast) (by decide)

variable (sdssplitargs)

/-- How reads end that execute `lines`: with `tail` in the buffer, or with the error of a line. -/
structure Executes (c : Client) (r : Except Stop Client) (lines : List (List UInt8))
    (tail : List UInt8) : Prop where
  running : (runLines sdssplitargs lines).2 = false → ∃ c', r = .ok c' ∧
    c'.commands = c.commands ++ (runLines sdssplitargs lines).1 ∧ c'.replies = c.replies ∧
    c'.querybuf = tail
  closed : (runLines sdssplitargs lines).2 = true → r = .error .freed ∨ ∃ c', r = .ok c' ∧
    c'.commands = c.commands ++ (runLines sdssplitargs lines).1 ∧
    c'.replies = c.replies ++ [.unbalancedQuotes]

/-- **Reads in a row** execute the lines of the stream, if every line feed without a carriage return
ends its read: the induction is on the reads, between which the buffer holds a part of a line. -/
theorem readQueries_lines (reads : List (List UInt8)) : ∀ (c : Client) (seen before part : List UInt8)
    (lines : List (List UInt8)), Idle c → c.querybuf = part → lf ∉ part → seen = before ++ part →
    before.getLast? ≠ some cr → part ++ reads.flatten = join lf lines ++ tail →
    (∀ l ∈ lines, IsLine l) → IsLine tail → EndsReads seen reads →
    (∀ bytes ∈ reads, bytes.length + protoInlineMaxSize ≤ protoMaxQuerybufLen) →
    Executes sdssplitargs c (readQueries sdssplitargs c reads) lines tail := by
  induction reads with
  | nil =>
    intro c seen before part lines hidle hbuf hpart _ _ hstream hlines _ _ _
    rw [flatten_nil, append_nil] at hstream
    cases lines with
    | cons l lines =>
      rw [hstream, join, List.append_assoc, List.cons_append] at hpart
      exact absurd (mem_append_right l mem_cons_self) hpart
    | nil =>
      rw [join, nil_append] at hstream
      exact ⟨fun _ => ⟨c, rfl, (append_nil _).symm, rfl, hbuf.trans hstream⟩,
        fun h => absurd h Bool.false_ne_true⟩
  | cons bytes reads ih =>
    intro c seen before part lines hidle hbuf hpart hseen hbefore hstream hlines htail hends hshort
    rw [flatten_cons, ← List.append_assoc] at hstream
    obtain ⟨done, rest, part', rfl, hcut, hpart', hstream'⟩ :=
      exists_cut (fun l hl => (hlines l hl).lf) htail.lf hstream
    obtain ⟨hdone, hrest⟩ := forall_mem_append.mp hlines
    have hline : IsLine part :=
      isLine_part hlines htail hpart ((List.append_assoc _ _ _).symm.trans hstream)
    have hline' : IsLine part' := isLine_part hrest htail hpart' hstream'
    have hread : ¬ (c.querybuf ++ bytes).length > protoMaxQuerybufLen := by
      have hbytes := hshort bytes mem_cons_self
      have hshort' := hline.short
      rw [length_append, hbuf]
      omega
    let c₁ : Client := { c with querybuf := c.querybuf ++ bytes }
    have hbuf₁ : c₁.querybuf = join lf done ++ part' := by
      rw [← hcut, ← hbuf]
    obtain ⟨c', hloop, hafter⟩ := inputLoop_lines sdssplitargs done
      (c₁.querybuf.length + 1) c₁ hdone hline' (ends_of_reads hpart hseen hbefore hends.1 hcut) hbuf₁
      ⟨hidle.type, hidle.flag⟩ (Nat.lt_succ_self _)
    have hstep : readQueries sdssplitargs c (bytes :: reads) = readQueries sdssplitargs c' reads := by
      rw [readQueries, queryRead]
      simp only [if_neg hread, processInputBuffer]
      rw [hloop]
    rw [hstep]
    have hrun := runLines_append sdssplitargs done rest
    by_cases herror : (runLines sdssplitargs done).2 = true
    · rw [if_pos herror] at hrun
      obtain ⟨hflag, hreplies⟩ := hafter.closed herror
      refine ⟨fun h => absurd (hrun ▸ h) (by rw [herror]; decide), fun _ => ?_⟩
      rw [hrun, ← hafter.commands]
      refine (readQueries_closing reads hflag).imp_right ?_
      rintro ⟨c'', hc'', hr, hcmds⟩
      exact ⟨c'', hc'', hcmds, hr.trans hreplies⟩
    · rw [if_neg herror] at hrun
      rw [Bool.not_eq_true] at herror
      obtain ⟨hidle', hbuf', hreplies⟩ := hafter.running herror
      have hseen' : seen ++ bytes = before ++ join lf done ++ part' := by
        rw [hseen, List.append_assoc, hcut, ← List.append_assoc]
      have hbefore' : (before ++ join lf done).getLast? ≠ some cr := by
        rw [getLast?_append, getLast?_join]
        split
        · rw [Option.none_or]
          exact hbefore
        · exact fun h => absurd (Option.some.inj h) (by decide)
      have hexec := ih c' (seen ++ bytes) (before ++ join lf done) part' rest hidle' hbuf' hpart'
        hseen' hbefore' hstream' hrest htail hends.2
        (fun b hb => hshort b (mem_cons_of_mem _ hb))
      refine ⟨fun h => ?_, fun h => ?_⟩
      · rw [hrun] at h ⊢
        obtain ⟨c'', hc'', hcmds, hr, hb⟩ := hexec.running h
        exact ⟨c'', hc'', by rw [hcmds, hafter.commands, List.append_assoc], hr.trans hreplies, hb⟩
      · rw [hrun] at h ⊢
        refine (hexec.closed h).imp_right ?_
        rintro ⟨c'', hc'', hcmds, hr⟩
        exact ⟨c'', hc'', by rw [hcmds, hafter.commands, List.append_assoc], by rw [hr, hreplies]⟩

/-- **Inline requests.**  A call leaves what follows the line if and only if the line ends in a carriage
return and a line feed, or nothing follows; reads in a row in which that is so of every line execute the
lines of the stream, up to one that is an error, whatever the reads. -/
theorem inline_frame_iff :
    (∀ (c : Client) (line term rest : List UInt8), lf ∉ line → 0 ∉ line →
        term = [lf] ∨ term = [cr, lf] → c.querybuf = line ++ (term ++ rest) →
        (processInlineBuffer sdssplitargs c).2 = true →
        ((processInlineBuffer sdssplitargs c).1.querybuf = rest
          ↔ [cr, lf] <:+ line ++ term ∨ rest = []))
      ∧ ∀ (reads lines : List (List UInt8)) (tail : List UInt8), (∀ l ∈ lines, IsLine l) →
        IsLine tail → reads.flatten = join lf lines ++ tail → EndsReads [] reads →
        (∀ bytes ∈ reads, bytes.length + protoInlineMaxSize ≤ protoMaxQuerybufLen) →
        Executes sdssplitargs createClient (readQueries sdssplitargs createClient reads) lines tail := by
  refine ⟨?_, ?_⟩
  · intro c line term rest hlf hnul hterm hbuf hok
    obtain ⟨full, hfull, hlf', hnul'⟩ : ∃ full, line ++ term = full ++ [lf] ∧ lf ∉ full ∧ 0 ∉ full := by
      rcases hterm with rfl | rfl
      · exact ⟨line, rfl, hlf, hnul⟩
      · refine ⟨line ++ [cr], by rw [List.append_assoc]; rfl, ?_, ?_⟩
        · rw [mem_append, not_or]
          exact ⟨hlf, by decide⟩
        · rw [mem_append, not_or]
          exact ⟨hnul, by decide⟩
    have hbuf' : c.querybuf = full ++ lf :: rest := by
      rw [hbuf, ← List.append_assoc, hfull, List.append_assoc]
      rfl
    have hends : [cr, lf] <:+ line ++ term ↔ full.getLast? = some cr := by
      rw [hfull, getLast?_eq_some_iff]
      refine exists_congr fun t => ?_
      rw [show t ++ [cr, lf] = t ++ [cr] ++ [lf] by rw [List.append_assoc]; rfl,
        List.append_left_inj, eq_comm]
    rw [processInlineBuffer_line hlf' hnul' hbuf'] at hok ⊢
    rw [hends, ← afterLine_eq_iff]
    cases hargs : sdssplitargs (chomp full) with
    | none => simp [hargs] at hok
    | some argv => rfl
  · intro reads lines tail hlines htail hstream hends hshort
    exact readQueries_lines sdssplitargs reads createClient [] [] [] lines ⟨nofun, rfl⟩ rfl
      not_mem_nil rfl nofun hstream hlines htail hends hshort

end

/-- `PING` and a line feed. -/
def ping : List UInt8 := [80, 73, 78, 71, lf]

/-- Twice `PING` and a line feed: read at once, the second request loses its first byte. -/
theorem inline_frame_ping :
    ((processInlineBuffer (fun l => some [l]) { createClient with querybuf := ping ++ ping }).2 = true
        ∧ (processInlineBuffer (fun l => some [l])
          { createClient with querybuf := ping ++ ping }).1.querybuf ≠ ping)
      ∧ (∃ c, readQueries (fun l => some [l]) createClient [ping ++ ping] = .ok c
        ∧ c.commands = [[[80, 73, 78, 71]], [[73, 78, 71]]])
      ∧ ∃ c, readQueries (fun l => some [l]) createClient [ping, ping] = .ok c
        ∧ c.commands = [[[80, 73, 78, 71]], [[80, 73, 78, 71]]] :=
  ⟨by decide, ⟨_, rfl, by decide⟩, ⟨_, rfl, by decide⟩⟩

/-- `PING` with a carriage return, cut into three reads; and a line feed alone at the end. -/
theorem inline_frame_iff_cut :
    (processInlineBuffer (fun l => some [l]) { createClient with querybuf := ping }).1.querybuf = []
      ∧ Executes (fun l => some [l]) createClient (readQueries (fun l => some [l]) createClient
        [[80, 73], [78, 71, 13], [10, 80]]) [[80, 73, 78, 71, 13]] [80] := by
  obtain ⟨hcall, hreads⟩ := inline_frame_iff fun l => some [l]
  refine ⟨(hcall _ [80, 73, 78, 71] [lf] [] (by decide) (by decide) (.inl rfl) rfl rfl).mpr (.inr rfl),
    hreads _ _ _ ?_ ?_ rfl ?_ (by decide)⟩
  · rw [forall_mem_singleton]
    exact ⟨by decide, by decide, by decide, by decide⟩
  · exact ⟨by decide, by decide, by decide, by decide⟩
  · have hmem : ∀ {a b : List UInt8}, lf ∈ a ++ lf :: b :=
      fun {a} {b} => mem_append_right a mem_cons_self
    refine ⟨fun a b h _ => absurd (h ▸ hmem) (show lf ∉ ([80, 73] : List UInt8) by decide),
      fun a b h _ => absurd (h ▸ hmem) (show lf ∉ ([78, 71, 13] : List UInt8) by decide),
      fun a b h _ => ?_, trivial⟩
    cases a with
    | nil => rfl
    | cons x a =>
      have htail := (List.cons.inj h).2
      exact absurd (htail ▸ hmem) (show lf ∉ ([80] : List UInt8) by decide)

end SourceLibs.RedisNetworking
