import Regatta.Bench

/-! The first of several times. -/
namespace Regatta.Instant

/-- One of the times, and no other is earlier. -/
def IsFirst (t : Instant) (ts : List (Option Instant)) : Prop :=
  some t ∈ ts ∧ ∀ u, some u ∈ ts → t ≤ u

theorem earlier_none_left (t : Option Instant) : earlier none t = t := rfl

variable {now : Instant} {s : Option Instant} {ts : List (Option Instant)}

variable {t : Option Instant} {u : Instant}

theorem earlier_eq_none : earlier s t = none ↔ s = none ∧ t = none := by
  cases s <;> cases t <;> simp [earlier]

theorem earlier_eq_some (h : earlier s t = some u) :
    IsFirst u [s, t] := by
  cases s with
  | none =>
    rw [earlier_none_left] at h
    exact ⟨by simp [h], fun v hv => by simp_all⟩
  | some a =>
    cases t with
    | none => exact ⟨by simp_all [earlier], fun v hv => by simp_all [earlier]⟩
    | some b =>
      have hu : u = min a b := by simpa [earlier] using h.symm
      refine ⟨?_, fun v hv => ?_⟩
      · simp only [List.mem_cons, Option.some.injEq, List.not_mem_nil, or_false, hu]
        grind
      · simp only [List.mem_cons, Option.some.injEq, List.not_mem_nil, or_false] at hv
        grind

theorem foldl_earlier_eq_none :
    ts.foldl earlier s = none ↔ s = none ∧ ∀ t ∈ ts, t = none := by
  induction ts generalizing s with
  | nil => simp
  | cons t rest ih => simp [ih, earlier_eq_none, and_assoc]

theorem foldl_earlier_eq_some (h : ts.foldl earlier s = some u) : IsFirst u (s :: ts) := by
  induction ts generalizing s with
  | nil =>
    have hs : s = some u := h
    exact ⟨by simp [hs], fun v hv => by simp_all⟩
  | cons t rest ih =>
    obtain ⟨hmem, hle⟩ := ih h
    -- The first of the two at the front stands for both.
    have hfront : ∀ v, some v ∈ [s, t] → ∃ w, earlier s t = some w ∧ w ≤ v := by
      intro v hv
      cases he : earlier s t with
      | none =>
        obtain ⟨rfl, rfl⟩ := earlier_eq_none.mp he
        simp at hv
      | some w => exact ⟨w, rfl, (earlier_eq_some he).2 v hv⟩
    refine ⟨?_, fun v hv => ?_⟩
    · rcases List.mem_cons.mp hmem with he | hr
      · have hfirst := (earlier_eq_some he.symm).1
        exact List.mem_append_left rest hfirst
      · simp [hr]
    · by_cases hr : some v ∈ rest
      · exact hle v (List.mem_cons_of_mem _ hr)
      · obtain ⟨w, hw, hwv⟩ := hfront v (by simp_all)
        exact Int.le_trans (hle w (by simp [hw])) hwv

theorem next_eq_none :
    next now ts = none ↔ ∀ t, some t ∈ ts → t ≤ now := by
  unfold next
  rw [foldl_earlier_eq_none]
  simp only [List.mem_map, forall_exists_index, and_imp, forall_apply_eq_imp_iff₂, true_and]
  constructor
  · intro h t ht
    have := h (some t) ht
    simpa [Option.filter] using this
  · intro h t ht
    cases t with
    | none => rfl
    | some t => simpa [Option.filter] using h t ht

theorem next_eq_some {t : Instant}
    (h : next now ts = some t) : now < t ∧ some t ∈ ts ∧ ∀ u, some u ∈ ts → now < u → t ≤ u := by
  obtain ⟨hmem, hle⟩ := foldl_earlier_eq_some h
  have hmem' : some t ∈ ts.map fun t => t.filter (now < ·) := by simpa using hmem
  obtain ⟨s, hs, hst⟩ := List.mem_map.mp hmem'
  obtain ⟨hs', hlt⟩ := Option.filter_eq_some_iff.mp hst
  refine ⟨by simpa using hlt, hs' ▸ hs, fun u hu hnu => hle u ?_⟩
  refine List.mem_cons_of_mem _ (List.mem_map.mpr ⟨some u, hu, ?_⟩)
  simp [Option.filter, hnu]

/-- What lies ahead anyhow is next. -/
theorem next_ahead (h : ∀ t, s = some t → now < t) :
    next now [s, none] = s := by
  cases s with
  | none => rfl
  | some t => simp [next, earlier, Option.filter, h t rfl]

end Regatta.Instant
