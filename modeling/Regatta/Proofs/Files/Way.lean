import Regatta.Proofs.Files.Place

/-! What is met on the way to a place.

Following names from a directory gets as far as the directories go. `Walked` says how it can end,
and what was there then. Where no file is in the way, directories can be made along the names, unless
one of these is too long (`laid_makeAlong`), and what is put last is the place itself
(`makeAlong_topped`). Steps up lead through directories that are there already (`walk_ups`,
`makeAlong_ups`). -/
namespace Regatta.FileTree

open Regatta.Path (ups climb)

/-- Between the root and a place, which is left out. -/
structure Above (k l : Location) : Prop where
  upto : k <+: l
  ne : k ≠ l

variable {t t' : FileTree} {above l : Location}

theorem above_cons (above : Location) (c : Text) (rest : List Text) :
    Above above (above ++ c :: rest) := ⟨List.prefix_append .., by simp⟩

variable {c : Text} {k : Location} (n : Nat) (passed cs : List Text)

theorem Above.concat (h : Above k (above ++ [c])) :
    k = above ∨ Above k above := by
  rcases List.prefix_concat_iff.mp h.upto with heq | hupto
  · exact absurd heq h.ne
  · by_cases heq : k = above
    · exact .inl heq
    · exact .inr ⟨hupto, heq⟩

theorem Above.not_prefix (h : Above k l) : ¬ l <+: k := fun hback =>
  h.ne (h.upto.eq_of_length_le hback.length_le)

/-! ### Following a path -/

theorem walk_ups (h : ∀ k, k <+: l → t.lookup k = some .directory) :
    t.walk l (ups n ++ cs) = t.walk (climb n l) cs := by
  induction n generalizing l with
  | zero =>
    rw [Path.climb_zero]
    rfl
  | succ n ih =>
    show t.walk l (Text.ofString ".." :: (ups n ++ cs)) = _
    rw [walk, h l List.prefix_rfl, ← Path.climb_dropLast,
      ← ih fun k hk => h k (hk.trans (List.dropLast_prefix l))]
    rfl

/-- How following names to a place ends. -/
inductive Walked (t : FileTree) (l : Location) : Except FileError Location → Prop
  | arrived (directories : ∀ k, Above k l → t.lookup k = some .directory) : Walked t l (.ok l)
  | lost {k : Location} (above : Above k l) (nothing : t.lookup k = none)
      (directories : ∀ a, Above a k → t.lookup a = some .directory) : Walked t l (.error .notFound)
  | blocked {k : Location} {content : Text} {x : Bool} (above : Above k l)
      (file : t.lookup k = some (.file content x)) : Walked t l (.error .notDirectory)
  | overlong {c : Text} (mem : c ∈ l) (long : maxName < c.length) : Walked t l (.error .nameTooLong)

theorem walked_walk {names : List Text} (hnames : ∀ c ∈ names, c ≠ "..")
    (habove : ∀ k, Above k above → t.lookup k = some .directory) :
    Walked t (above ++ names) (t.walk above names) := by
  induction names generalizing above with
  | nil =>
    rw [List.append_nil]
    exact .arrived habove
  | cons c rest ih =>
    obtain ⟨hc, hrest⟩ := List.forall_mem_cons.mp hnames
    unfold walk
    split
    · rename_i hnone
      exact .lost (above_cons ..) hnone habove
    · rename_i hfile
      exact .blocked (above_cons ..) hfile
    · rename_i hdir
      split
      · rename_i hlong
        exact .overlong (by simp) hlong
      · rw [if_neg (by simpa using hc), List.append_cons]
        exact ih hrest fun k hk => hk.concat.elim (fun heq => heq ▸ hdir) (habove k)

/-! ### Making directories along a path -/

theorem makeAlong_ups (l : Location) :
    t.makeAlong l passed (ups n ++ cs) = t.makeAlong (climb n l) (passed ++ ups n) cs := by
  induction n generalizing l passed with
  | zero =>
    rw [Path.climb_zero]
    simp [ups]
  | succ n ih =>
    show t.makeAlong l passed (Text.ofString ".." :: (ups n ++ cs)) = _
    rw [makeAlong, if_pos (beq_self_eq_true _), ih, Path.climb_dropLast, List.append_assoc]
    rfl

/-- No file is at this place. -/
def Free (t : FileTree) (k : Location) : Prop := ∀ content x, t.lookup k ≠ some (.file content x)

theorem Free.insert (h : t.Free k) (hl : l ≠ []) :
    (t.insert l .directory).Free k := by
  intro content x
  rw [t.lookup_insert hl]
  split
  · exact fun heq => by cases heq
  · exact h content x

/-- How making directories along names ends where no file is in the way. -/
inductive Laid (above : Location) (names : List Text) :
    FileTree × Option (List Text × FileError) → Prop
  | whole {t : FileTree} (proper : ∀ c ∈ names, misnamed? c = none)
      (directories : ∀ k, k <+: above ++ names → t.lookup k = some .directory) :
      Laid above names (t, none)
  | halted {t : FileTree} {x : List Text × FileError}
      (kept : ∀ k, k <+: above → t.lookup k = some .directory)
      (long : ∃ c ∈ names, maxName < c.length)
      (stuck : t.walk above names = .error .nameTooLong) : Laid above names (t, some x)

theorem misnamed?_of_zero (h : 0 ∉ c) :
    misnamed? c = if maxName < c.length then some .nameTooLong else none :=
  if_neg (by simpa using h)

/-- Where there is no file on the way, directories are made as far as the names are not too long. -/
theorem laid_makeAlong {names : List Text} (hnames : ∀ c ∈ names, c ≠ ".." ∧ 0 ∉ c)
    (habove : ∀ k, k <+: above → t.lookup k = some .directory)
    (hfree : ∀ k, k <+: above ++ names → t.Free k) :
    Laid above names (t.makeAlong above passed names) := by
  induction names generalizing t above passed with
  | nil =>
    refine .whole (fun _ hc => absurd hc List.not_mem_nil) fun k hk => habove k ?_
    rwa [List.append_nil] at hk
  | cons c rest ih =>
    obtain ⟨⟨hc, hzero⟩, hrest⟩ := List.forall_mem_cons.mp hnames
    have hname := misnamed?_of_zero hzero
    have hgoes {r : FileTree × Option (List Text × FileError)} (hproper : misnamed? c = none)
        (h : Laid (above ++ [c]) rest r) : Laid above (c :: rest) r := by
      have hshort : ¬ maxName < c.length := fun hlong => by
        rw [hproper, if_pos hlong] at hname
        cases hname
      cases h with
      | whole proper directories =>
        exact .whole (List.forall_mem_cons.mpr ⟨hproper, proper⟩)
          (List.append_cons above c rest ▸ directories)
      | halted kept long stuck =>
        obtain ⟨d, hd, hlong⟩ := long
        refine .halted (fun k hk => kept k (hk.trans (List.prefix_append ..)))
          ⟨d, List.mem_cons_of_mem _ hd, hlong⟩ ?_
        rw [walk, kept above (List.prefix_append ..), ← stuck]
        dsimp only
        rw [if_neg hshort, if_neg (by simpa using hc)]
    rw [List.append_cons] at hfree
    rw [makeAlong, if_neg (by simpa using hc)]
    split
    · rename_i hwhy
      rw [hwhy] at hname
      split at hname
      · rename_i hlong
        refine .halted habove ⟨c, List.mem_cons_self, hlong⟩ ?_
        rw [walk, habove above List.prefix_rfl]
        exact if_pos hlong
      · cases hname
    · rename_i hproper
      dsimp only
      split
      · rename_i hthere
        exact hgoes hproper (ih _ hrest (fun k hk => (List.prefix_concat_iff.mp hk).elim
          (fun heq => heq ▸ hthere) (habove k)) hfree)
      · rename_i hfile
        exact absurd hfile (hfree (above ++ [c]) (List.prefix_append ..) _ _)
      · refine hgoes hproper (ih _ hrest (fun k hk => ?_) fun k hk => (hfree k hk).insert (by simp))
        rw [t.lookup_insert (by simp)]
        split
        · rfl
        · rename_i hne
          exact habove k ((List.prefix_concat_iff.mp hk).resolve_left hne)

/-- The directories above are there, so that only the last one is made. -/
theorem makeAlong_last {names : List Text} (hnames : ∀ c ∈ names, c ≠ "..") (hne : names ≠ [])
    (hproper : ∀ c ∈ names, misnamed? c = none)
    (habove : ∀ k, Above k (above ++ names) → t.lookup k = some .directory)
    (hnone : t.lookup (above ++ names) = none) :
    t.makeAlong above passed names = (t.insert (above ++ names) .directory, none) := by
  induction names generalizing above passed with
  | nil => contradiction
  | cons c rest ih =>
    obtain ⟨hc, hrest⟩ := List.forall_mem_cons.mp hnames
    obtain ⟨hname, hproper⟩ := List.forall_mem_cons.mp hproper
    rw [List.append_cons] at habove hnone
    rw [makeAlong, if_neg (by simpa using hc), hname, List.append_cons above c rest]
    dsimp only
    by_cases hlast : rest = []
    · subst hlast
      rw [List.append_nil] at hnone ⊢
      rw [hnone]
      rfl
    · rw [habove (above ++ [c]) ⟨List.prefix_append .., by simpa⟩]
      exact ih _ hrest hlast hproper habove hnone

/-- A directory that was made after everything else, and that is empty. -/
def Topped (l : Location) (t : FileTree) : Prop :=
  ∃ rest, t.entries = (l, .directory) :: rest ∧ ∀ e ∈ rest, ¬ l <+: e.1

theorem mem_insert {e : Location × FileEntry} {x : FileEntry} (h : e ∈ (t.insert l x).entries) :
    e = (l, x) ∨ e ∈ t.entries :=
  (List.mem_cons.mp h).imp_right fun he => (List.mem_filter.mp he).1

theorem makeAlong_topped (t : FileTree) (above : Location) {names : List Text}
    (hnames : ∀ c ∈ names, c ≠ "..") (hne : names ≠ [])
    (hgone : ∀ e ∈ t.entries, ¬ above ++ names <+: e.1)
    (h : (t.makeAlong above passed names).2 = none) :
    Topped (above ++ names) (t.makeAlong above passed names).1 := by
  induction names generalizing t above passed with
  | nil => contradiction
  | cons c rest ih =>
    obtain ⟨hc, hrest⟩ := List.forall_mem_cons.mp hnames
    rw [List.append_cons] at hgone ⊢
    revert h
    rw [makeAlong, if_neg (by simpa using hc)]
    split
    · exact fun h => by cases h
    · dsimp only
      split
      · rename_i hdir
        refine ih _ _ _ hrest (fun hlast => ?_) hgone
        obtain ⟨e, he, heq⟩ := mem_of_lookup (t := t) (k := above ++ [c]) (by simp) (by simp [hdir])
        exact hgone e he (by simp [heq, hlast])
      · exact fun h => by cases h
      · by_cases hlast : rest = []
        · subst hlast
          rw [List.append_nil] at hgone ⊢
          exact fun _ => ⟨_, rfl, fun e he => hgone e (List.mem_filter.mp he).1⟩
        · refine ih _ _ _ hrest hlast fun e he => ?_
          rcases mem_insert he with rfl | he
          · exact Above.not_prefix ⟨List.prefix_append .., by simpa⟩
          · exact hgone e he

/-- Removing such a directory and making it again changes nothing. -/
theorem Topped.again (h : Topped l t) : (t.erase l).insert l .directory = t := by
  obtain ⟨rest, hentries, hrest⟩ := h
  have hbeside : ∀ e ∈ rest, (!l.isPrefixOf e.1) = true := fun e he => by
    simpa [Bool.eq_false_iff, List.isPrefixOf_iff_prefix] using hrest e he
  have hother : ∀ e ∈ rest, (e.1 != l) = true := fun e he => by
    simpa using fun heq : e.1 = l => hrest e he (heq ▸ List.prefix_rfl)
  have hself : (!l.isPrefixOf l) = false := by simp
  cases t with
  | mk current entries =>
    subst hentries
    simp only [erase, FileTree.insert, List.filter_cons, hself, FileTree.mk.injEq, true_and]
    rw [if_neg (by simp), List.filter_eq_self.mpr hbeside, List.filter_eq_self.mpr hother]

/-! ### The whole path -/

section
variable {p : Text} {up : Nat} {names : List Text}

theorem locate_steps (h : Path.Steps (Path.clean p) up names)
    (hzero : (Path.clean p).any (· == 0) = false)
    (hcurrent : ∀ k, k <+: t.current → t.lookup k = some .directory) :
    t.locate (Path.clean p) = t.walk (t.turn (Path.clean p) up) names := by
  rw [t.locate_clean, hzero, if_neg Bool.false_ne_true, h.parts,
    walk_ups up names fun k hk => hcurrent k (hk.trans (t.start_prefix p)), turn, start_clean]

theorem walked_locate (h : Path.Steps (Path.clean p) up names)
    (hzero : (Path.clean p).any (· == 0) = false)
    (hcurrent : ∀ k, k <+: t.current → t.lookup k = some .directory) :
    Walked t (t.place p) (t.locate (Path.clean p)) := by
  rw [locate_steps h hzero hcurrent, ← t.place_clean, t.place_steps h]
  exact walked_walk (fun c hc => (h.plain c hc).not_up) fun k hk =>
    hcurrent k (hk.upto.trans (t.turn_prefix ..))

theorem makeAll_steps (h : Path.Steps p up names) :
    (t.makeAll p).1 = (t.makeAlong (t.turn p up) (ups up) names).1 ∧
      ((t.makeAll p).2 = none ↔ (t.makeAlong (t.turn p up) (ups up) names).2 = none) := by
  unfold makeAll
  dsimp only
  rw [h.parts, makeAlong_ups, List.nil_append]
  exact ⟨rfl, Option.map_eq_none_iff⟩

end
end Regatta.FileTree
