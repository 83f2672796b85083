import Regatta.Text.Basic

/-! Text in pieces: what is put together comes apart again. -/
namespace Regatta.Text

variable {sep : UInt8} {t : Text} {ts : List Text}

theorem stripPrefix?_eq_some {front rest : Text} :
    stripPrefix? front t = some rest ↔ t = front ++ rest := by
  unfold stripPrefix?
  constructor
  · intro h
    split at h
    · rename_i hfront
      obtain ⟨more, rfl⟩ := List.isPrefixOf_iff_prefix.mp hfront
      cases h
      simp
    · cases h
  · rintro rfl
    rw [if_pos (List.isPrefixOf_iff_prefix.mpr (List.prefix_append _ _))]
    simp

theorem beq_separator {b : UInt8} (h : sep ∉ b :: t) : (b == sep) = false := by
  rw [beq_eq_false_iff_ne]
  rintro rfl
  exact h (List.mem_cons_self ..)

theorem splitOn_of_not_mem (h : sep ∉ t) : splitOn sep t = [t] := by
  induction t with
  | nil => rfl
  | cons b rest ih =>
    rw [splitOn, beq_separator h, ih fun hmem => h (List.mem_cons_of_mem _ hmem)]
    rfl

theorem splitOn_append (h : sep ∉ t) (rest : Text) :
    splitOn sep (t ++ sep :: rest) = t :: splitOn sep rest := by
  induction t with
  | nil =>
    show splitOn sep (sep :: rest) = _
    rw [splitOn, beq_self_eq_true, if_pos rfl]
  | cons b t ih =>
    rw [List.cons_append, splitOn, beq_separator h, ih fun hmem => h (List.mem_cons_of_mem _ hmem)]
    rfl

/-- Pieces without a separator in them are what is between the separators. -/
theorem splitOn_join (hne : ts ≠ []) (h : ∀ t ∈ ts, sep ∉ t) :
    splitOn sep (join [sep] ts) = ts := by
  induction ts with
  | nil => exact absurd rfl hne
  | cons t rest ih =>
    have ht := h t (List.mem_cons_self ..)
    cases rest with
    | nil => exact splitOn_of_not_mem ht
    | cons u rest =>
      have hrest := ih (by simp) fun x hx => h x (List.mem_cons_of_mem _ hx)
      rw [join, List.append_assoc, List.singleton_append, splitOn_append ht, hrest]
      simp

theorem not_mem_of_splitOn {piece : Text} (h : piece ∈ splitOn sep t) :
    sep ∉ piece := by
  fun_induction splitOn sep t generalizing piece with
  | case1 =>
    cases List.mem_singleton.mp h
    exact List.not_mem_nil
  | case2 b rest hb ih =>
    rcases List.mem_cons.mp h with rfl | h
    · exact List.not_mem_nil
    · exact ih h
  | case3 b rest hb hrest ih =>
    have hne : sep ≠ b := fun he => hb (beq_iff_eq.mpr he.symm)
    cases List.mem_singleton.mp h
    exact List.not_mem_cons_of_ne_of_not_mem hne List.not_mem_nil
  | case4 b rest hb first more hrest ih =>
    have hne : sep ≠ b := fun he => hb (beq_iff_eq.mpr he.symm)
    rw [hrest] at ih
    rcases List.mem_cons.mp h with rfl | h
    · exact List.not_mem_cons_of_ne_of_not_mem hne (ih (List.mem_cons_self ..))
    · exact ih (List.mem_cons_of_mem _ h)

theorem splitOn_ne_nil (sep : UInt8) (t : Text) : splitOn sep t ≠ [] := by
  cases t with
  | nil => simp [splitOn]
  | cons b rest =>
    rw [splitOn]
    split
    · simp
    · split <;> simp

/-- What comes apart is put together again. -/
theorem join_splitOn (sep : UInt8) (t : Text) : join [sep] (splitOn sep t) = t := by
  induction t with
  | nil => rfl
  | cons b rest ih =>
    obtain ⟨piece, more, hsplit⟩ := List.exists_cons_of_ne_nil (splitOn_ne_nil sep rest)
    rw [splitOn]
    rw [hsplit] at ih ⊢
    split
    · rename_i hb
      rw [beq_iff_eq.mp hb]
      exact congrArg (sep :: ·) ih
    · cases more with
      | nil => exact congrArg (b :: ·) ih
      | cons u more => exact congrArg (b :: ·) ih

theorem splitOn_append_last {last : Text} {front : List Text}
    (h : splitOn sep t = front ++ [last]) (u : Text) :
    splitOn sep (t ++ u) = front ++ splitOn sep (last ++ u) := by
  have hfront : ∀ p ∈ front, sep ∉ p := fun p hp =>
    not_mem_of_splitOn (h ▸ List.mem_append_left _ hp)
  rw [← join_splitOn sep t, h]
  clear h
  induction front with
  | nil => rfl
  | cons p front ih =>
    obtain ⟨hp, hfront⟩ := List.forall_mem_cons.mp hfront
    obtain ⟨second, more, hmore⟩ : ∃ second more, front ++ [last] = second :: more :=
      List.exists_cons_of_ne_nil (by simp)
    have hrest := ih hfront
    rw [List.cons_append, hmore, join, List.append_assoc, List.append_assoc, List.singleton_append,
      splitOn_append hp, ← hmore, hrest]
    rfl
    simp

theorem mem_join {sep : Text} {b : UInt8} (h : b ∈ join sep ts) :
    b ∈ sep ∨ ∃ t ∈ ts, b ∈ t := by
  fun_induction join sep ts with
  | case1 => cases h
  | case2 t => exact .inr ⟨t, List.mem_singleton_self t, h⟩
  | case3 t rest _ ih =>
    rcases List.mem_append.mp h with h | h
    · rcases List.mem_append.mp h with h | h
      · exact .inr ⟨t, List.mem_cons_self .., h⟩
      · exact .inl h
    · exact (ih h).imp id fun ⟨u, hu, hb⟩ => ⟨u, List.mem_cons_of_mem _ hu, hb⟩

theorem mem_join_of_mem {sep : Text} {b : UInt8} (ht : t ∈ ts) (hb : b ∈ t) :
    b ∈ join sep ts := by
  fun_induction join sep ts with
  | case1 => cases ht
  | case2 u =>
    cases List.mem_singleton.mp ht
    exact hb
  | case3 u rest _ ih =>
    rcases List.mem_cons.mp ht with rfl | ht
    · exact List.mem_append_left _ (List.mem_append_left _ hb)
    · exact List.mem_append_right _ (ih ht)

theorem cut_eq_some {front back : Text} :
    cut sep t = some (front, back) ↔ t = front ++ sep :: back ∧ sep ∉ front := by
  induction t generalizing front back with
  | nil => simp [cut]
  | cons b rest ih =>
    rw [cut]
    by_cases hb : b = sep
    · rw [if_pos (beq_iff_eq.mpr hb), hb]
      cases front with
      | nil => simp
      | cons c front => simp +contextual
    · rw [if_neg (mt beq_iff_eq.mp hb)]
      cases front with
      | nil => simp [hb]
      | cons c front =>
        simp only [Option.map_eq_some_iff, ih, Prod.exists, Prod.mk.injEq, List.cons.injEq,
          List.cons_append, List.mem_cons, not_or]
        grind

end Regatta.Text
