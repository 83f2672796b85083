import Regatta.Proofs.Files.Tree

/-! Where a path leads.

A path is followed from the root or from the current directory. A name goes one step down, two dots
go one step up, and there is nothing above the root. All this is said by the text of the path
(`FileTree.place`). A cleaned path leads to the same place (`place_clean`), by steps up that are
followed by names (`exists_steps`).

A tree is `Sound` when it is one that a system keeps: everything is in a directory, and so is
whoever looks at it. What is above something in such a tree is a directory (`Sound.directory`). -/
namespace Regatta

namespace Path

def stepFrom (l : Location) (c : Text) : Location := if c == ".." then l.dropLast else l ++ [c]

def follow (l : Location) (cs : List Text) : Location := cs.foldl stepFrom l

variable {c : Text} {cs : List Text} {rooted : Bool} (n : Nat) (l : Location) (p : Text)

theorem stepFrom_up : stepFrom l ".." = l.dropLast := rfl

theorem stepFrom_name (h : c ≠ "..") : stepFrom l c = l ++ [c] :=
  if_neg (by simpa using h)

theorem follow_append (cs ds : List Text) :
    follow l (cs ++ ds) = follow (follow l cs) ds := List.foldl_append

theorem follow_down (h : ∀ c ∈ cs, c ≠ "..") :
    follow l cs = l ++ cs := by
  induction cs generalizing l with
  | nil => simp [follow]
  | cons c rest ih =>
    obtain ⟨hc, hrest⟩ := List.forall_mem_cons.mp h
    show follow (stepFrom l c) rest = _
    rw [stepFrom_name l hc, ih _ hrest, List.append_assoc]
    rfl

def climb (n : Nat) (l : Location) : Location := l.take (l.length - n)

theorem climb_zero : climb 0 l = l := List.take_length

theorem climb_dropLast : climb n l.dropLast = climb (n + 1) l := by
  unfold climb
  rw [List.dropLast_eq_take, List.take_take, List.length_take]
  congr 1
  omega

theorem climb_prefix : climb n l <+: l := List.take_prefix ..

theorem prefix_climb {k l : Location} (h : k <+: l) : k = climb (l.length - k.length) l := by
  unfold climb
  rw [Nat.sub_sub_self h.length_le]
  exact List.prefix_iff_eq_take.mp h

theorem follow_ups : follow l (ups n) = climb n l := by
  induction n generalizing l with
  | zero => exact (climb_zero l).symm
  | succ n ih =>
    rw [← climb_dropLast, ← ih]
    rfl

/-! ### Cleaned paths -/

/-- Resolving the steps up in a path makes no difference to where it leads. From the root there is
nothing to go up to. -/
theorem follow_resolveParts {l : Location} (hroot : rooted = true → l = []) (done cs : List Text) :
    follow l (resolveParts rooted done cs) = follow l (done.reverse ++ cs) := by
  induction cs generalizing done with
  | nil => rw [resolveParts, List.append_nil]
  | cons c rest ih =>
    by_cases hc : c = ".."
    · subst hc
      cases done with
      | nil =>
        rw [resolveParts, if_pos (beq_self_eq_true _)]
        split
        · rename_i hrooted
          rw [ih, hroot hrooted]
          rfl
        · exact ih _
      | cons d above =>
        rw [resolveParts, if_pos (beq_self_eq_true _)]
        split
        · rw [ih]
          simp
        · rename_i hd
          -- a name and the step up after it cancel
          have hback : ∀ l : Location, follow l [d, Text.ofString ".."] = l := fun l => by
            show stepFrom (stepFrom l d) (Text.ofString "..") = l
            rw [stepFrom_name l (by simpa using hd), stepFrom_up, List.dropLast_concat]
          rw [ih, List.reverse_cons, List.append_assoc, follow_append, follow_append]
          show _ = follow (follow (follow l above.reverse) [d, Text.ofString ".."]) rest
          rw [hback]
    · rw [resolveParts_name hc, ih]
      simp

theorem mem_resolveParts {done : List Text}
    (h : c ∈ resolveParts rooted done cs) : c ∈ done ∨ c ∈ cs := by
  induction cs generalizing done with
  | nil => exact .inl (List.mem_reverse.mp h)
  | cons d rest ih =>
    have hdone : ∀ {done' : List Text}, (∀ x ∈ done', x ∈ d :: done) →
        c ∈ resolveParts rooted done' rest → c ∈ done ∨ c ∈ d :: rest := by
      intro done' hsub hmem
      rcases ih hmem with hc | hc
      · rcases List.mem_cons.mp (hsub c hc) with rfl | hc
        · exact .inr (List.mem_cons_self ..)
        · exact .inl hc
      · exact .inr (List.mem_cons_of_mem _ hc)
    unfold resolveParts at h
    split at h
    · split at h
      · split at h
        · exact hdone (fun x hx => absurd hx List.not_mem_nil) h
        · exact hdone (fun x hx => hx) h
      · split at h
        · exact hdone (fun x hx => hx) h
        · exact hdone (fun x hx => List.mem_cons_of_mem _ (List.mem_cons_of_mem _ hx)) h
    · exact hdone (fun x hx => hx) h

theorem named_resolveParts {p : Text} (h : c ∈ resolveParts rooted [] (parts p)) :
    Named c :=
  (mem_resolveParts h).elim (fun hc => absurd hc List.not_mem_nil) named_of_parts

theorem parts_relative (h : ∀ c ∈ cs, Named c) :
    parts (Text.join [slash] cs) = cs := by
  have hdown := parts_down h
  unfold parts at *
  rwa [Text.splitOn, beq_self_eq_true, if_pos rfl, List.filter_cons_of_neg (by simp)] at hdown

theorem join_ne_nil (h : ∀ c ∈ cs, Named c) (hne : cs ≠ []) :
    Text.join [slash] cs ≠ [] := by
  obtain ⟨c, rest, rfl⟩ := List.exists_cons_of_ne_nil hne
  obtain ⟨b, hb⟩ := List.exists_mem_of_ne_nil c (h c (List.mem_cons_self ..)).nonempty
  exact List.ne_nil_of_mem (Text.mem_join_of_mem (List.mem_cons_self ..) hb)

theorem clean_eq : clean p =
    if isAbsolute p then down (resolveParts true [] (parts p))
    else if resolveParts false [] (parts p) = [] then "."
    else Text.join [slash] (resolveParts false [] (parts p)) := by
  unfold clean
  dsimp only
  cases isAbsolute p with
  | true => rfl
  | false =>
    simp only [Bool.false_eq_true, if_false]
    by_cases hnil : resolveParts false [] (parts p) = []
    · rw [if_pos hnil, hnil]
      rfl
    · have hbody := join_ne_nil (fun c hc => named_resolveParts hc) hnil
      rw [if_neg hnil]
      exact if_neg fun hempty => hbody (List.isEmpty_iff.mp hempty)

theorem clean_ne_nil : clean p ≠ [] := by
  rw [clean_eq]
  split
  · exact List.cons_ne_nil _ _
  · split
    · decide
    · rename_i hne
      exact join_ne_nil (fun c hc => named_resolveParts hc) hne

theorem parts_clean : parts (clean p) = resolveParts (isAbsolute p) [] (parts p) := by
  rw [clean_eq]
  cases isAbsolute p with
  | true => exact parts_down fun c hc => named_resolveParts hc
  | false =>
    simp only [Bool.false_eq_true, if_false]
    split
    · rename_i hnil
      rw [hnil]
      rfl
    · exact parts_relative fun c hc => named_resolveParts hc

theorem isAbsolute_relative (h : ∀ c ∈ cs, Named c) :
    isAbsolute (Text.join [slash] cs) = false := by
  cases cs with
  | nil => rfl
  | cons c rest =>
    have hc := h c (List.mem_cons_self ..)
    obtain ⟨b, more, rfl⟩ := List.exists_cons_of_ne_nil hc.nonempty
    have hb : b ≠ slash := fun heq => hc.slash (heq ▸ List.mem_cons_self ..)
    cases rest <;> simpa [isAbsolute, Text.join] using hb

theorem isAbsolute_clean : isAbsolute (clean p) = isAbsolute p := by
  rw [clean_eq]
  cases isAbsolute p with
  | true => rfl
  | false =>
    simp only [Bool.false_eq_true, if_false]
    split
    · rfl
    · exact isAbsolute_relative fun c hc => named_resolveParts hc

/-- A path that goes up by so many steps first, and then down by these names. -/
structure Steps (p : Text) (up : Nat) (names : List Text) : Prop where
  parts : parts p = ups up ++ names
  plain : ∀ c ∈ names, Plain c
  rooted : isAbsolute p = true → up = 0

theorem exists_steps : ∃ up names, Steps (clean p) up names := by
  obtain ⟨up, names, hparts, hplain, hrooted⟩ := exists_resolved_parts p
  exact ⟨up, names, (parts_clean p).trans hparts, hplain, fun h => hrooted (isAbsolute_clean p ▸ h)⟩

/-- What a cleaned path ends in. Only the path of the root ends in a slash. -/
theorem getLast?_relative (h : ∀ c ∈ cs, Named c) (hne : cs ≠ []) :
    (Text.join [slash] cs).getLast? ≠ some slash := by
  have hlast := getLast?_down h hne
  rwa [down, List.getLast?_cons_of_ne_nil (join_ne_nil h hne)] at hlast

end Path

namespace FileTree

def start (t : FileTree) (p : Text) : Location := if Path.isAbsolute p then [] else t.current

/-- The place that a path leads to, as its text says. -/
def place (t : FileTree) (p : Text) : Location := Path.follow (t.start p) (Path.parts p)

theorem start_clean (t : FileTree) (p : Text) : t.start (Path.clean p) = t.start p := by
  unfold start
  rw [Path.isAbsolute_clean]

theorem start_prefix (t : FileTree) (p : Text) : t.start p <+: t.current := by
  unfold start
  split
  · exact List.nil_prefix
  · exact List.prefix_rfl

theorem place_clean (t : FileTree) (p : Text) : t.place (Path.clean p) = t.place p := by
  unfold place
  rw [start_clean, Path.parts_clean, Path.follow_resolveParts]
  · rfl
  · exact fun h => if_pos h

/-- The place that the steps up of a path lead to. -/
def turn (t : FileTree) (p : Text) (up : Nat) : Location := Path.climb up (t.start p)

theorem turn_prefix (t : FileTree) (p : Text) (up : Nat) : t.turn p up <+: t.current :=
  (Path.climb_prefix ..).trans (t.start_prefix p)

theorem place_steps (t : FileTree) {p : Text} {up : Nat} {names : List Text}
    (h : Path.Steps p up names) : t.place p = t.turn p up ++ names := by
  unfold place turn
  rw [h.parts, Path.follow_append, Path.follow_ups,
    Path.follow_down _ fun c hc => (h.plain c hc).not_up]

theorem locate_clean (t : FileTree) (p : Text) : t.locate (Path.clean p) =
    if (Path.clean p).any (· == 0) then .error .invalid
    else t.walk (t.start p) (Path.parts (Path.clean p)) := by
  cases habs : Path.isAbsolute p with
  | true =>
    rw [t.locate_canonical (Path.canonical_clean habs), start, if_pos habs]
  | false =>
    have hclean := Path.clean_eq p
    have hkind := Path.isAbsolute_clean p
    rw [habs] at hclean hkind
    simp only [Bool.false_eq_true, if_false] at hclean
    have hends : (Path.clean p).getLast? ≠ some Path.slash := by
      rw [hclean]
      split
      · decide
      · rename_i hne
        exact Path.getLast?_relative (fun c hc => Path.named_resolveParts hc) hne
    unfold locate start
    rw [hkind, habs, if_neg (by simpa using Path.clean_ne_nil p)]
    split
    · rfl
    · simp only [beq_iff_eq, if_neg hends]
      exact bind_pure _

/-! ### Trees that a system keeps -/

/-- A name that can be in a directory. -/
structure Name (c : Text) : Prop extends Path.Plain c where
  zero : 0 ∉ c
  length : c.length ≤ maxName

instance (c : Text) : Decidable (Name c) :=
  decidable_of_iff ((Path.slash ∉ c ∧ c ≠ [] ∧ c ≠ "." ∧ c ≠ "..") ∧ 0 ∉ c ∧ c.length ≤ maxName)
    ⟨fun ⟨⟨hslash, hne, hhere, hup⟩, hrest⟩ => ⟨⟨⟨hslash, hne, hhere⟩, hup⟩, hrest.1, hrest.2⟩,
      fun h => ⟨⟨h.slash, h.nonempty, h.not_here, h.not_up⟩, h.zero, h.length⟩⟩

/-- Everything is in a directory under its name, and so is whoever looks at it. -/
structure Sound (t : FileTree) : Prop where
  above : ∀ e ∈ t.entries, t.lookup e.1.dropLast = some .directory
  names : ∀ e ∈ t.entries, ∀ c ∈ e.1, Name c
  current : t.lookup t.current = some .directory

theorem mem_of_lookup {t : FileTree} {k : Location} (hk : k ≠ []) (h : t.lookup k ≠ none) :
    ∃ e ∈ t.entries, e.1 = k := by
  rw [lookup_entries t hk] at h
  obtain ⟨e, he⟩ := Option.ne_none_iff_exists'.mp h
  obtain ⟨before, after, hentries, -⟩ := List.lookup_eq_some_iff.mp he
  exact ⟨(k, e), by simp [hentries], rfl⟩

theorem lookup_of_mem {t : FileTree} {e : Location × FileEntry} (h : e ∈ t.entries) :
    t.lookup e.1 ≠ none := by
  by_cases hk : e.1 = []
  · rw [hk, lookup_root]
    exact Option.some_ne_none _
  · rw [lookup_entries t hk]
    intro hnone
    simpa using List.lookup_eq_none_iff.mp hnone e h

instance (t : FileTree) : Decidable t.Sound :=
  decidable_of_iff ((∀ e ∈ t.entries, t.lookup e.1.dropLast = some .directory) ∧
      (∀ e ∈ t.entries, ∀ c ∈ e.1, Name c) ∧ t.lookup t.current = some .directory)
    ⟨fun ⟨habove, hnames, hcurrent⟩ => ⟨habove, hnames, hcurrent⟩,
      fun h => ⟨h.above, h.names, h.current⟩⟩

variable {t : FileTree}

variable {a k : Location}

namespace Sound
variable (h : t.Sound)
include h

theorem dropLast (hk : t.lookup k ≠ none) : t.lookup k.dropLast = some .directory := by
  by_cases hroot : k = []
  · rw [hroot]
    rfl
  · obtain ⟨e, he, rfl⟩ := mem_of_lookup hroot hk
    exact h.above e he

theorem climb (n : Nat) (hk : t.lookup k ≠ none) :
    t.lookup (Path.climb (n + 1) k) = some .directory := by
  induction n generalizing k with
  | zero => rw [← Path.climb_dropLast, Path.climb_zero, h.dropLast hk]
  | succ n ih =>
    rw [← Path.climb_dropLast]
    exact ih (by simp [h.dropLast hk])

theorem directory (hak : a <+: k) (hne : a ≠ k)
    (hk : t.lookup k ≠ none) : t.lookup a = some .directory := by
  have hlength : k.length - a.length ≠ 0 := fun hzero =>
    hne (hak.eq_of_length_le (Nat.le_of_sub_eq_zero hzero))
  obtain ⟨n, hn⟩ := Nat.exists_eq_succ_of_ne_zero hlength
  rw [Path.prefix_climb hak, hn]
  exact h.climb n hk

theorem directories (hk : k <+: t.current) : t.lookup k = some .directory := by
  by_cases heq : k = t.current
  · rw [heq, h.current]
  · exact h.directory hk heq (by simp [h.current])

theorem name (hk : t.lookup k ≠ none) {c : Text} (hc : c ∈ k) : Name c := by
  obtain ⟨e, he, rfl⟩ := mem_of_lookup (List.ne_nil_of_mem hc) hk
  exact h.names e he c hc

theorem nothing_below (ha : t.lookup a ≠ some .directory)
    (hak : a <+: k) (hne : a ≠ k) : t.lookup k = none :=
  Decidable.byContradiction fun hk => ha (h.directory hak hne hk)

end Sound

end FileTree
end Regatta
