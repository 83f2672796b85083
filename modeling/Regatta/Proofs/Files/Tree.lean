import Regatta.Proofs.Files.Child

/-! What is where in a tree of files, and what the operations do to it.

All of it is told by `lookup`. A canonical path names the place that its parts lead to, if it names
any (`locate_parts`), and whether it does depends on the directories above that place only
(`locate_congr`). Making a directory with its parents puts directories where nothing was on the way,
and nothing else (`made_makeAll`). -/
namespace Regatta

namespace FileTree

theorem lookup_root (t : FileTree) : t.lookup [] = some .directory := rfl

variable {above l place : Location} {cs : List Text} {p : Text} {t t' : FileTree}

theorem lookup_entries (t : FileTree) (h : l ≠ []) :
    t.lookup l = t.entries.lookup l := by
  simp [lookup, h]

/-- What a filter of locations keeps is still found, and the rest is not. -/
theorem lookup_filter (keep : Location → Bool) (entries : List (Location × FileEntry))
    (l : Location) :
    (entries.filter fun e => keep e.1).lookup l = if keep l then entries.lookup l else none := by
  induction entries with
  | nil => simp
  | cons e rest ih =>
    obtain ⟨k, e⟩ := e
    rw [List.filter_cons, List.lookup_cons]
    by_cases hl : l = k
    · subst hl
      cases hkeep : keep l with
      | false => simpa [hkeep] using ih
      | true => simp
    · have hne : (l == k) = false := beq_eq_false_iff_ne.mpr hl
      split
      · rw [List.lookup_cons, hne, ih]
      · rw [ih, hne]

theorem lookup_insert (t : FileTree) (hl : l ≠ []) (e : FileEntry) (k : Location) :
    (t.insert l e).lookup k = if k = l then some e else t.lookup k := by
  by_cases hk : k = []
  · rw [hk, if_neg (Ne.symm hl)]
    rfl
  · rw [lookup_entries _ hk, lookup_entries _ hk, insert, List.lookup_cons,
      lookup_filter (fun x => x != l)]
    by_cases hkl : k = l
    · simp [hkl]
    · have hne : (k == l) = false := beq_eq_false_iff_ne.mpr hkl
      simp [hkl, hne]

theorem lookup_erase (t : FileTree) (hl : l ≠ []) (k : Location) :
    (t.erase l).lookup k = if l <+: k then none else t.lookup k := by
  by_cases hk : k = []
  · rw [hk, if_neg (by simpa using hl)]
    rfl
  · rw [lookup_entries _ hk, lookup_entries _ hk, erase, lookup_filter (fun x => !l.isPrefixOf x)]
    by_cases hle : l <+: k
    · have hbelow : l.isPrefixOf k = true := List.isPrefixOf_iff_prefix.mpr hle
      rw [hbelow, if_pos hle]
      rfl
    · have hbeside : l.isPrefixOf k = false := by
        rwa [← Bool.not_eq_true, List.isPrefixOf_iff_prefix]
      rw [hbeside, if_neg hle]
      rfl

/-! ### Finding the place -/

theorem walk_down (hcs : ∀ c ∈ cs, c ≠ "..") (h : t.walk above cs = .ok l) : l = above ++ cs := by
  induction cs generalizing above with
  | nil =>
    cases h
    simp
  | cons c rest ih =>
    have hc : ¬ (c == Text.ofString "..") = true := by simpa using hcs c (List.mem_cons_self ..)
    unfold walk at h
    split at h
    · cases h
    · cases h
    · split at h
      · cases h
      · rw [ih (fun d hd => hcs d (List.mem_cons_of_mem _ hd)) h]
        simp

/-- On the way only what is above the place is looked at. -/
theorem walk_congr (hcs : ∀ c ∈ cs, c ≠ "..")
    (hsame : ∀ k, k <+: above ++ cs → k ≠ above ++ cs → t'.lookup k = t.lookup k) :
    t'.walk above cs = t.walk above cs := by
  induction cs generalizing above with
  | nil => rfl
  | cons c rest ih =>
    have hc : (c == Text.ofString "..") = false := by simpa using hcs c (List.mem_cons_self ..)
    have habove : t'.lookup above = t.lookup above :=
      hsame above (List.prefix_append _ _) (by simp)
    have hrest : t'.walk (above ++ [c]) rest = t.walk (above ++ [c]) rest := by
      refine ih (fun d hd => hcs d (List.mem_cons_of_mem _ hd)) fun k hk hne => ?_
      rw [List.append_assoc] at hk hne
      exact hsame k hk hne
    rw [walk, walk, habove, hc, hrest]
    rfl

theorem locate_canonical (t : FileTree) (h : Path.Canonical p) :
    t.locate p = if p.any (· == 0) then .error .invalid else t.walk [] (Path.parts p) := by
  have hdown := h.eq_down
  have hempty : p.isEmpty = false := by
    rw [hdown]
    rfl
  unfold locate
  rw [hempty, h.isAbsolute]
  dsimp only
  rw [if_neg (by simp)]
  split
  · rfl
  · rw [if_pos rfl]
    by_cases hparts : Path.parts p = []
    · -- the root is a directory, so its slash asks for nothing more
      rw [hparts]
      simp only [walk, bind, Except.bind, lookup_root]
      split <;> rfl
    · have hlast := Path.getLast?_down (fun c hc => (h.plain hc).toNamed) hparts
      rw [← hdown] at hlast
      simp only [beq_iff_eq, if_neg hlast]
      exact bind_pure _

theorem locate_parts (hp : Path.Canonical p) (h : t.locate p = .ok l) : l = Path.parts p := by
  rw [t.locate_canonical hp] at h
  split at h
  · cases h
  · exact walk_down (fun c hc => (hp.plain hc).not_up) h

/-- Whether a canonical path names a place depends on what is above it. -/
theorem locate_congr (hp : Path.Canonical p)
    (hsame : ∀ k, k <+: Path.parts p → k ≠ Path.parts p → t'.lookup k = t.lookup k) :
    t'.locate p = t.locate p := by
  rw [t.locate_canonical hp, t'.locate_canonical hp,
    walk_congr (fun c hc => (hp.plain hc).not_up) hsame]

theorem removeAll_located (h : t.locate p = .ok l) :
    t.removeAll p = .ok (t.erase l) := by
  have hempty : p.isEmpty = false := by
    cases p with
    | nil => cases h
    | cons => rfl
  unfold removeAll
  rw [hempty, h]
  rfl

/-! ### Making directories -/

/-- What is new is a directory, where nothing was, on the way to this place. -/
structure Made (place : Location) (t t' : FileTree) : Prop where
  current : t'.current = t.current
  lookup : ∀ k, t'.lookup k = t.lookup k ∨
    t.lookup k = none ∧ t'.lookup k = some .directory ∧ k <+: place

theorem Made.refl (place : Location) (t : FileTree) : Made place t t := ⟨rfl, fun _ => .inl rfl⟩

theorem Made.trans {t'' : FileTree} (h : Made place t t')
    (h' : Made place t' t'') : Made place t t'' where
  current := h'.current.trans h.current
  lookup k := by
    rcases h.lookup k with hsame | ⟨hnone, hnew, hk⟩
    · rw [← hsame]
      exact h'.lookup k
    · rcases h'.lookup k with hsame' | ⟨hnone', -⟩
      · exact .inr ⟨hnone, hsame'.trans hnew, hk⟩
      · rw [hnew] at hnone'
        cases hnone'

theorem Made.weaken {below : Location} (h : Made place t t')
    (hbelow : place <+: below) : Made below t t' where
  current := h.current
  lookup k := (h.lookup k).imp_right fun ⟨hnone, hnew, hk⟩ => ⟨hnone, hnew, hk.trans hbelow⟩

theorem made_insert (hl : l ≠ []) (hnone : t.lookup l = none)
    (hplace : l <+: place) : Made place t (t.insert l .directory) where
  current := rfl
  lookup k := by
    rw [t.lookup_insert hl]
    by_cases hk : k = l
    · rw [hk, if_pos rfl]
      exact .inr ⟨hnone, rfl, hplace⟩
    · rw [if_neg hk]
      exact .inl rfl

theorem made_makeAlong (t : FileTree) (above : Location) (passed : List Text)
    (hcs : ∀ c ∈ cs, c ≠ "..") : Made (above ++ cs) t (t.makeAlong above passed cs).1 := by
  induction cs generalizing t above passed with
  | nil => exact .refl _ _
  | cons c rest ih =>
    obtain ⟨hc, hrest⟩ := List.forall_mem_cons.mp hcs
    have hsplit : above ++ c :: rest = above ++ [c] ++ rest := by simp
    rw [makeAlong, if_neg (by simpa using hc), hsplit]
    split
    · exact .refl _ _
    · dsimp only
      split
      · exact ih _ _ _ hrest
      · exact .refl _ _
      · exact (made_insert (by simp) (by assumption) (List.prefix_append _ _)).trans (ih _ _ _ hrest)

theorem made_makeAll (hp : Path.Canonical p) (t : FileTree) : Made (Path.parts p) t (t.makeAll p).1 := by
  have hmade := made_makeAlong t [] [] fun c hc => (hp.plain hc).not_up
  rw [List.nil_append] at hmade
  unfold makeAll
  rw [hp.isAbsolute]
  exact hmade

end FileTree
end Regatta
