import Regatta.Proofs.Files.Path

/-! Paths one name below a canonical path.

The names that lead to a canonical path are its parts, and two such paths with the same parts are
the same. Joining a name to one goes one step down (`parts_join`), whatever slashes come with the
name. -/
namespace Regatta

theorem Text.splitOn_sep (sep : UInt8) (t rest : Text) :
    splitOn sep (t ++ sep :: rest) = splitOn sep t ++ splitOn sep rest := by
  induction t with
  | nil => simp [splitOn]
  | cons b t ih =>
    obtain ⟨piece, more, hpieces⟩ := List.exists_cons_of_ne_nil (splitOn_ne_nil sep t)
    rw [List.cons_append, splitOn, splitOn, ih, hpieces]
    split <;> rfl

theorem Text.join_cons (sep t : Text) {ts : List Text} (h : ts ≠ []) :
    join sep (t :: ts) = t ++ sep ++ join sep ts := by
  cases ts with
  | nil => contradiction
  | cons second rest => rfl

theorem Text.join_append (sep : Text) {ts us : List Text} (hts : ts ≠ []) (hus : us ≠ []) :
    join sep (ts ++ us) = join sep ts ++ sep ++ join sep us := by
  induction ts with
  | nil => contradiction
  | cons t rest ih =>
    by_cases hrest : rest = []
    · rw [hrest]
      exact join_cons sep t hus
    · rw [List.cons_append, join_cons sep t (by simp [hrest]), ih hrest, join_cons sep t hrest]
      simp only [List.append_assoc]

theorem Text.join_concat (sep : Text) {ts : List Text} (h : ts ≠ []) (t : Text) :
    join sep (ts ++ [t]) = join sep ts ++ sep ++ t :=
  join_append sep h (List.cons_ne_nil t [])

namespace Path

/-- The path that leads from the root down by these names. -/
def down (cs : List Text) : Text := slash :: Text.join [slash] cs

variable {c d p : Text} {cs : List Text}

theorem canonical_iff : Canonical p ↔ (∀ c ∈ parts p, Plain c) ∧ p = down (parts p) := by
  constructor
  · rintro ⟨cs, hcs, rfl⟩
    rw [parts_down fun c hc => (hcs c hc).1]
    exact ⟨fun c hc => ⟨(hcs c hc).1, (hcs c hc).2⟩, rfl⟩
  · rintro ⟨hcs, hp⟩
    exact ⟨parts p, fun c hc => ⟨(hcs c hc).toNamed, (hcs c hc).not_up⟩, hp⟩

theorem Canonical.plain (h : Canonical p) (hc : c ∈ parts p) : Plain c :=
  (canonical_iff.mp h).1 c hc

theorem Canonical.eq_down (h : Canonical p) : p = down (parts p) :=
  (canonical_iff.mp h).2

theorem canonical_down (h : ∀ c ∈ cs, Plain c) : Canonical (down cs) :=
  ⟨cs, fun c hc => ⟨(h c hc).toNamed, (h c hc).not_up⟩, rfl⟩

theorem parts_of_plain (h : ∀ c ∈ cs, Plain c) : parts (down cs) = cs :=
  parts_down fun c hc => (h c hc).toNamed

theorem parts_append (p q : Text) : parts (p ++ slash :: q) = parts p ++ parts q := by
  unfold parts
  rw [Text.splitOn_sep, List.filter_append]

theorem parts_name (h : Named c) : parts c = [c] := by
  unfold parts
  rw [Text.splitOn_of_not_mem h.slash]
  simp [h.nonempty, h.not_here]

theorem parts_name_slash (h : Named c) : parts (c ++ [slash]) = [c] := by
  rw [parts_append, parts_name h]
  rfl

theorem join_pair {p q : Text} (hp : p ≠ []) (hq : q ≠ []) :
    join [p, q] = clean (p ++ slash :: q) := by
  have hkept : [p, q].filter (!·.isEmpty) = [p, q] := by simp [hp, hq]
  unfold join
  rw [hkept, if_neg (by simp)]
  simp only [Text.join, List.append_assoc]
  rfl

theorem join_name {q : Text} (hd : Canonical d) (hc : Plain c) (hq : parts q = [c]) :
    join [d, q] = down (parts d ++ [c]) := by
  have hdown := hd.eq_down
  have hd' : d ≠ [] := by
    rw [hdown]
    exact List.cons_ne_nil _ _
  have hq' : q ≠ [] := by
    rintro rfl
    cases hq
  have habsolute : isAbsolute (d ++ slash :: q) = true := by
    rw [hdown]
    rfl
  rw [join_pair hd' hq', clean, habsolute, parts_append, hq, if_pos rfl, resolveParts_of_down]
  · rfl
  · intro x hx
    rcases List.mem_append.mp hx with hx | hx
    · exact (hd.plain hx).not_up
    · rw [List.mem_singleton.mp hx]
      exact hc.not_up

theorem forall_plain_concat (hd : Canonical d) (hc : Plain c) :
    ∀ x ∈ parts d ++ [c], Plain x := by
  intro x hx
  rcases List.mem_append.mp hx with hx | hx
  · exact hd.plain hx
  · rw [List.mem_singleton.mp hx]
    exact hc

theorem parts_join {q : Text} (hd : Canonical d) (hc : Plain c) (hq : parts q = [c]) :
    parts (join [d, q]) = parts d ++ [c] := by
  rw [join_name hd hc hq, parts_of_plain (forall_plain_concat hd hc)]

theorem down_concat (hd : Canonical d) (hne : parts d ≠ []) :
    down (parts d ++ [c]) = d ++ "/" ++ c := by
  have hdown := hd.eq_down
  unfold down at *
  rw [Text.join_concat _ hne, ← List.cons_append, ← List.cons_append, ← hdown]
  rfl

theorem exists_down (front : List Text) (c : Text) :
    ∃ before, down (front ++ [c]) = before ++ slash :: c := by
  by_cases hfront : front = []
  · exact ⟨[], by rw [hfront]; rfl⟩
  · exact ⟨down front, by simp [down, Text.join_concat _ hfront]⟩

theorem getLast?_down (h : ∀ c ∈ cs, Named c) (hne : cs ≠ []) :
    (down cs).getLast? ≠ some slash := by
  obtain ⟨front, c, rfl⟩ : ∃ front c, cs = front ++ [c] :=
    ⟨cs.dropLast, cs.getLast hne, (List.dropLast_concat_getLast hne).symm⟩
  obtain ⟨before, hbefore⟩ := exists_down front c
  have hc := h c (by simp)
  rw [hbefore, List.getLast?_append, List.getLast?_cons_of_ne_nil hc.nonempty,
    List.getLast?_eq_some_getLast hc.nonempty, Option.some_or]
  exact fun hslash => hc.slash (Option.some.inj hslash ▸ List.getLast_mem hc.nonempty)

end Path
end Regatta
