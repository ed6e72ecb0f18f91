import SourceLibs.SgiStl.RbErase

/-!
# SGI STL — insertion

* `insert_holds`: a new node at an empty place of a red-black tree.
-/

namespace SourceLibs.SgiStl

open RedBlackTree RedBlackTree.Tree

variable {m : Mem ℕ} {h : ℕ} {ctx : List (Frame ℕ)} {s : Side}

/-- The side on which `_M_insert` attaches the node. -/
def insertSide (x : Option ℕ) (less : Bool) : Side := if x ≠ none ∨ less = true then .left else .right

/-- The memory when the node is attached. -/
def attached (h : ℕ) (m : Mem ℕ) (x : Option ℕ) (y z : ℕ) (less : Bool) : Mem ℕ :=
  (((if y = h ∨ x ≠ none ∨ less = true then
      if y = h then ((m.setChild y .left (some z)).setParent h (some z)).setChild h .right (some z)
      else linkChild .left h m y z
    else linkChild .right h m y z).setParent z (some y)).setChild z .left none).setChild z .right none

theorem insert_eq (fuel h : ℕ) (m : Mem ℕ) (x : Option ℕ) (y z : ℕ) (less : Bool) :
    insert fuel h m x y z less = rebalance fuel h (attached h m x y z less) z := rfl

@[simp] theorem linkChild_color (y z : ℕ) : (linkChild s h m y z).color = m.color := by
  simp only [linkChild]
  split_ifs <;> rfl

@[simp] theorem linkChild_parent (y z : ℕ) : (linkChild s h m y z).parent = m.parent := by
  simp only [linkChild]
  split_ifs <;> rfl

theorem linkChild_child {y : ℕ} (hy : y ≠ h) (z : ℕ) (s' : Side) (n : ℕ) :
    (linkChild s h m y z).child s' n =
      if s' = s ∧ (n = y ∨ n = h ∧ m.child s h = some y) then some z else m.child s' n := by
  have hread : (m.setChild y s (some z)).child s h = m.child s h := by simp [hy.symm]
  simp only [linkChild, hread]
  by_cases hend : m.child s h = some y
  · rw [if_pos hend]
    simp only [Mem.setChild_child, hend, and_true]
    by_cases hs : s' = s <;> by_cases hn : n = h <;> simp [hs, hn]
  · rw [if_neg hend]
    simp [hend]

theorem linkChild_attached {x : Option ℕ} {y z : ℕ} {less : Bool} (hy : y ≠ h) :
    attached h m x y z less = (((linkChild (insertSide x less) h m y z).setParent z (some y)).setChild z
      .left none).setChild z .right none := by
  rw [attached, insertSide]
  by_cases hx : x ≠ none ∨ less = true
  · rw [if_pos (.inr hx), if_neg hy, if_pos hx]
  · rw [if_neg (by simp only [hy, false_or]; exact hx), if_neg hx]

/-- The place for a new node below `y`, or below the header of an empty tree. -/
def At (h y : ℕ) (s : Side) : List (Frame ℕ) → Prop
  | []     => y = h
  | f :: _ => f.name = y ∧ f.side = s

theorem attached_holds {x : Option ℕ} {y z : ℕ} {less : Bool} (hm : Holds m h (plug ctx .nil))
    (he : Ends m h (plug ctx .nil)) (hat : At h y (insertSide x less) ctx) (hzh : z ≠ h)
    (hz : z ∉ (plug ctx .nil).toList) :
    ∃ c, Holds (attached h m x y z less) h (plug ctx (.node z c .nil .nil))
      ∧ Ends (attached h m x y z less) h (plug ctx (.node z c .nil .nil))
      ∧ (attached h m x y z less).color = m.color
      ∧ ∀ n, n ≠ h → n ≠ z → n ∉ (plug ctx .nil).toList → m.Same (attached h m x y z less) n := by
  simp only [mem_plug, toList_nil, List.not_mem_nil, false_or] at hz
  have hhc : h ∉ names ctx := (List.nodup_cons.mp (nodup_plug.mp hm.nodup).2.1).1
  cases ctx with
  | nil =>
    obtain rfl : y = h := hat
    have hmem : attached y m x y z less = (((((m.setChild y .left (some z)).setParent y
        (some z)).setChild y .right (some z)).setParent z (some y)).setChild z .left none).setChild z
        .right none := by
      rw [attached, if_pos (.inl rfl), if_pos rfl]
    rw [hmem]
    refine ⟨_, hm.attach hzh hz (by simp [anchor]) (fun s' => by cases s' <;> simp) ?_ ?_, fun s' => ?_,
      rfl, fun n hn hnz _ => ?_⟩
    · simp [Mem.setLink, hzh.symm]
    · simp [names]
    · cases s' <;> simp [hzh.symm, walk, toList]
    · exact ⟨rfl, by simp [hn, hnz], fun s' => by simp [hn, hnz]⟩
  | cons f ctx =>
    obtain ⟨fs, p, c, u⟩ := f
    obtain ⟨rfl, rfl⟩ : p = y ∧ fs = insertSide x less := hat
    have hph : p ≠ h := fun e => hhc (by simp [names, e])
    have hpz : p ≠ z := fun e => hz (by simp [names, e])
    obtain ⟨m₁, hm₁, hcol, hpar, hchi⟩ : ∃ m₁, attached h m x p z less = m₁ ∧ m₁.color = m.color
        ∧ (∀ n, m₁.parent n = if n = z then some p else m.parent n)
        ∧ ∀ s' n, m₁.child s' n =
            if n = z then none
            else if s' = insertSide x less ∧
              (n = p ∨ n = h ∧ m.child (insertSide x less) h = some p) then some z
            else m.child s' n := by
      refine ⟨_, rfl, ?_, fun n => ?_, fun s' n => ?_⟩ <;> rw [linkChild_attached hph]
      · simp
      · simp
      · by_cases hn : n = z
        · cases s' <;> simp [hn]
        · simp [hn, linkChild_child hph]
    rw [hm₁]
    refine ⟨_, hm.attach hzh hz ?_ (fun s' => ?_) ?_ (fun n hn => ?_), fun s' => ?_, hcol,
      fun n hn hnz hnT => ⟨by rw [hcol], ?_, fun s' => ?_⟩⟩
    · rw [hpar, if_pos rfl]
      rfl
    · rw [hchi, if_pos rfl]
    · rw [hpar, if_neg hzh.symm]
      rfl
    · have hnz : n ≠ z := fun e => hz (e ▸ hn)
      have hnh : n ≠ h := fun e => hhc (e ▸ hn)
      refine ⟨by rw [hcol, Mem.setLink_color], ?_, fun s' => ?_⟩
      · rw [hpar, if_neg hnz]
        rfl
      · simp [hchi, hnz, hnh, Mem.setLink]
    · rw [hchi, if_neg hzh.symm, he s', walk_plug, walk_plug]
      have hnd := nodup_walk (s := insertSide x less) |>.mpr (List.nodup_cons.mp hm.nodup).2
      rw [walk_plug, walk_nil, List.nil_append] at hnd
      rcases Side.eq_or (insertSide x less) s' with rfl | rfl
      · rw [he (insertSide x less), walk_plug]
        rw [fore_cons, aft_cons] at hnd ⊢
        cases hf : fore (insertSide x less) ctx with
        | nil => simp [hph.symm]
        | cons a l =>
          have hap : a ≠ p := by
            rintro rfl
            simp [hf] at hnd
          simp [hph.symm, hap]
      · have hne : fore (insertSide x less).flip (⟨insertSide x less, p, c, u⟩ :: ctx) ≠ [] := by
          have h' := fore_cons_flip (insertSide x less).flip p c u ctx
          rw [Side.flip_flip] at h'
          simp [h']
        rw [if_neg (by simp), headD_append_of_ne hne, headD_append_of_ne hne]
    · rw [hpar, if_neg hnz]
    · have hnp : n ≠ p := by
        rintro rfl
        exact hnT (mem_plug.mpr (.inr (by simp [names])))
      simp [hchi, hnz, hn, hnp]

/-- The names when a node is attached at the place. -/
theorem toList_leaf (ctx : List (Frame ℕ)) (z : ℕ) (c : Color) :
    (plug ctx (.node z c .nil .nil)).toList = before ctx ++ z :: after ctx := by
  simp [toList_plug, toList]

/-- **Insertion** of a new node at an empty place. -/
theorem insert_holds {x : Option ℕ} {y z fuel : ℕ} {less : Bool} (hm : Holds m h (plug ctx .nil))
    (he : Ends m h (plug ctx .nil)) (hT : RedBlack (plug ctx .nil)) (hat : At h y (insertSide x less) ctx)
    (hzh : z ≠ h) (hz : z ∉ (plug ctx .nil).toList) (hfuel : (plug ctx .nil).toList.length < fuel) :
    ∃ m' T, insert fuel h m x y z less = some m' ∧ Holds m' h T ∧ Ends m' h T ∧ RedBlack T
      ∧ T.toList = before ctx ++ z :: after ctx ∧ m'.color h = m.color h
      ∧ ∀ n, n ≠ h → n ≠ z → n ∉ (plug ctx .nil).toList → m.Same m' n := by
  obtain ⟨c, hold, hends, hcol, hout⟩ := attached_holds hm he hat hzh hz
  obtain ⟨d, n, hn, hctx⟩ := hT.of_plug
  cases hn
  have hlen := length_le_plug ctx .nil
  obtain ⟨m', T, hreb, hrb, hmoves⟩ := rebalance_moves hold hctx (show ctx.length < fuel by omega)
  refine ⟨m', T, by rw [insert_eq, hreb], hmoves.holds, hmoves.keep_ends hends, hrb,
    hmoves.toList.trans (toList_leaf ..), by rw [hmoves.color, hcol], fun n hn hnz hnT => ?_⟩
  refine (hout n hn hnz hnT).trans (hmoves.outside n hn ?_)
  simp only [mem_plug, toList_nil, List.not_mem_nil, false_or] at hnT
  simp [mem_plug, toList, hnz, hnT]

end SourceLibs.SgiStl
