import Regatta.Bench
import Regatta.Proofs.Text.Split

/-! Paths that mean the same everywhere.

A canonical path leads from the root down by names that stand for themselves. Cleaning a path that
starts at the root gives one (`canonical_clean`), and leaves one as it is (`clean_canonical`). So
what is once made absolute does not depend on the current directory any more
(`Bench.absolute_canonical`). -/
namespace Regatta

namespace Path

/-- A part of a path that says something: a name, or the step up. -/
structure Named (c : Text) : Prop where
  slash : slash ∉ c
  nonempty : c ≠ []
  not_here : c ≠ "."

/-- A name that stands for itself. -/
structure Plain (c : Text) : Prop extends Named c where
  not_up : c ≠ ".."

/-- The path leads from the root down, and never up. -/
def Canonical (p : Text) : Prop :=
  ∃ cs : List Text, (∀ c ∈ cs, Named c ∧ c ≠ "..") ∧ p = slash :: Text.join [slash] cs

def ups (n : Nat) : List Text := List.replicate n ".."

variable {c p : Text} {cs done : List Text} {rooted : Bool}

theorem Canonical.isAbsolute (h : Canonical p) : isAbsolute p = true := by
  obtain ⟨cs, -, rfl⟩ := h
  rfl

theorem named_of_parts (h : c ∈ parts p) : Named c := by
  obtain ⟨hmem, hkept⟩ := List.mem_filter.mp h
  simp only [Bool.not_or, Bool.and_eq_true, Bool.not_eq_true', List.isEmpty_eq_false_iff,
    beq_eq_false_iff_ne] at hkept
  exact ⟨Text.not_mem_of_splitOn hmem, hkept.1, hkept.2⟩

theorem mem_of_mem_parts {b : UInt8} (h : c ∈ parts p) (hb : b ∈ c) : b ∈ p := by
  rw [← Text.join_splitOn slash p]
  exact Text.mem_join_of_mem (List.mem_filter.mp h).1 hb

theorem resolveParts_name (h : c ≠ "..") (rooted : Bool) (done rest : List Text) :
    resolveParts rooted done (c :: rest) = resolveParts rooted (c :: done) rest := by
  cases done <;> simp [resolveParts, h]

/-- Of steps up and plain names behind them, the last part is a step up if there are no names. -/
theorem last_up_iff {front names : List Text} {up : Nat}
    (h : front ++ [c] = ups up ++ names) (hnames : ∀ c ∈ names, Plain c) :
    c = ".." ↔ names = [] := by
  constructor
  · intro hup
    refine Decidable.byContradiction fun hne => ?_
    have hends := congrArg List.getLast? h
    rw [List.getLast?_concat, List.getLast?_append, List.getLast?_eq_some_getLast hne] at hends
    refine (hnames _ (List.getLast_mem hne)).not_up ?_
    rw [← Option.some.inj hends]
    exact hup
  · intro hnil
    rw [hnil, List.append_nil] at h
    have hmem : c ∈ ups up := h ▸ by simp
    exact List.eq_of_mem_replicate hmem

/-- What is left of a path goes up first, and then down. From the root it does not go up. -/
theorem exists_resolved (hcs : ∀ c ∈ cs, Named c) (up : Nat)
    (names : List Text) (hdone : done.reverse = ups up ++ names) (hnames : ∀ c ∈ names, Plain c)
    (hroot : rooted = true → up = 0) :
    ∃ up names, resolveParts rooted done cs = ups up ++ names ∧
      (∀ c ∈ names, Plain c) ∧ (rooted = true → up = 0) := by
  induction cs generalizing done up names with
  | nil => exact ⟨up, names, hdone, hnames, hroot⟩
  | cons c rest ih =>
    obtain ⟨hc, hrest⟩ := List.forall_mem_cons.mp hcs
    by_cases hup : c = ".."
    · subst hup
      cases done with
      | nil =>
        rw [resolveParts, if_pos (beq_self_eq_true _)]
        split
        · exact ih hrest up names hdone hnames hroot
        · rename_i hrooted
          exact ih hrest 1 [] rfl (by simp) fun h => absurd h hrooted
      | cons d above =>
        rw [List.reverse_cons] at hdone
        rw [resolveParts, if_pos (beq_self_eq_true _)]
        split
        · rename_i hd
          have hnil := (last_up_iff hdone hnames).mp (beq_iff_eq.mp hd)
          rw [hnil, List.append_nil] at hdone
          have hrooted : ¬ rooted = true := fun h => by
            rw [hroot h] at hdone
            simp [ups] at hdone
          refine ih hrest (up + 1) [] ?_ (by simp) fun h => absurd h hrooted
          rw [List.reverse_cons, List.reverse_cons, hdone, List.append_nil, ups, ups,
            List.replicate_succ']
        · rename_i hd
          have hne : names ≠ [] := fun hnil =>
            hd (beq_iff_eq.mpr ((last_up_iff hdone hnames).mpr hnil))
          refine ih hrest up names.dropLast ?_
            (fun c hc => hnames c (List.dropLast_subset _ hc)) hroot
          have hfront := congrArg List.dropLast hdone
          rwa [List.dropLast_concat, List.dropLast_append_of_ne_nil hne] at hfront
    · rw [resolveParts_name hup]
      refine ih hrest up (names ++ [c]) ?_ (List.forall_mem_append.mpr ⟨hnames, ?_⟩) hroot
      · rw [List.reverse_cons, hdone, List.append_assoc]
      · exact fun x hx => List.mem_singleton.mp hx ▸ ⟨hc, hup⟩

theorem resolveParts_of_down (h : ∀ c ∈ cs, c ≠ "..") :
    resolveParts rooted done cs = done.reverse ++ cs := by
  induction cs generalizing done with
  | nil => rw [resolveParts, List.append_nil]
  | cons c rest ih =>
    rw [resolveParts_name (h c (List.mem_cons_self ..)),
      ih fun d hd => h d (List.mem_cons_of_mem _ hd), List.reverse_cons, List.append_assoc]
    rfl

theorem exists_resolved_parts (p : Text) : ∃ up names,
    resolveParts (isAbsolute p) [] (parts p) = ups up ++ names ∧ (∀ c ∈ names, Plain c) ∧
      (isAbsolute p = true → up = 0) :=
  exists_resolved (fun c hc => named_of_parts hc) 0 [] List.reverse_nil (by simp) fun _ => rfl

theorem canonical_clean (h : isAbsolute p = true) : Canonical (clean p) := by
  obtain ⟨up, names, hparts, hplain, hup⟩ := exists_resolved_parts p
  rw [hup h] at hparts
  refine ⟨names, fun c hc => ⟨(hplain c hc).toNamed, (hplain c hc).not_up⟩, ?_⟩
  unfold clean
  dsimp only
  rw [hparts, h]
  rfl

theorem parts_down (h : ∀ c ∈ cs, Named c) :
    parts (slash :: Text.join [slash] cs) = cs := by
  have hkeep : cs.filter (fun c => !(c.isEmpty || c == Text.ofString ".")) = cs := by
    refine List.filter_eq_self.mpr fun c hc => ?_
    simpa using ⟨(h c hc).nonempty, (h c hc).not_here⟩
  unfold parts
  rw [Text.splitOn, beq_self_eq_true, if_pos rfl, List.filter_cons_of_neg (by simp)]
  cases cs with
  | nil => rfl
  | cons c rest => rw [Text.splitOn_join (by simp) fun d hd => (h d hd).slash, hkeep]

theorem clean_canonical (h : Canonical p) : clean p = p := by
  have habsolute := h.isAbsolute
  obtain ⟨cs, hcs, rfl⟩ := h
  unfold clean
  rw [habsolute, parts_down fun c hc => (hcs c hc).1]
  dsimp only
  rw [resolveParts_of_down fun c hc => (hcs c hc).2]
  rfl

theorem canonical_join (h : isAbsolute p = true) (ps : List Text) :
    Canonical (join (p :: ps)) := by
  obtain ⟨rest, rfl⟩ : ∃ rest, p = slash :: rest := by
    cases p with
    | nil => cases h
    | cons b rest => exact ⟨rest, by simpa [isAbsolute] using h⟩
  unfold join
  rw [List.filter_cons_of_pos rfl]
  refine canonical_clean ?_
  generalize ps.filter (!·.isEmpty) = kept
  cases kept with
  | nil => rfl
  | cons q kept => rfl

end Path

namespace Bench

theorem canonical_absolute (b : Bench) (p : Text) : Path.Canonical (b.absolute p) := by
  unfold absolute Path.absolute
  split
  · rename_i h
    exact Path.canonical_clean h
  · exact Path.canonical_join rfl [p]

/-- The current directory makes no difference to a canonical path. -/
theorem absolute_canonical (b : Bench) {p : Text} (h : Path.Canonical p) : b.absolute p = p := by
  unfold absolute Path.absolute
  rw [if_pos h.isAbsolute]
  exact Path.clean_canonical h

end Bench
end Regatta
