import Regatta.Proofs.Files.Tree
import Regatta.Proofs.Relay
import Regatta.Proofs.Stage

/-! Where a verification writes.

The scratch directory is a new one, one name below the place of work (`scratchDirectory_made`). A
stage writes to a file right in it, whose name is that of the file before with the stage's name put
in front (`target_eq`). So the names get longer from stage to stage, and no two stages of a relay
write to the same place (`Relay.growing`). -/
namespace Regatta

namespace Path

theorem plain_of_mem {c : Text} {x : UInt8} (hslash : slash ∉ c) (hx : x ∈ c) (hdot : x ≠ 46) :
    Plain c where
  slash := hslash
  nonempty := List.ne_nil_of_mem hx
  not_here := by
    rintro rfl
    exact hdot (List.mem_singleton.mp hx)
  not_up := by
    rintro rfl
    rcases List.mem_cons.mp hx with hx | hx
    · exact hdot hx
    · exact hdot (List.mem_singleton.mp hx)

theorem down_append (cs : List Text) (c more : Text) :
    down (cs ++ [c]) ++ more = down (cs ++ [c ++ more]) := by
  unfold down
  by_cases hcs : cs = []
  · rw [hcs]
    rfl
  · rw [Text.join_concat _ hcs, Text.join_concat _ hcs]
    simp

def leaf (p : Text) : Text := (parts p).getLast?.getD []

theorem slash_not_mem_leaf (p : Text) : slash ∉ leaf p := by
  unfold leaf
  cases hlast : (parts p).getLast? with
  | none => exact List.not_mem_nil
  | some c => exact (named_of_parts (List.mem_of_getLast? hlast)).slash

theorem base_canonical {p : Text} (h : Canonical p) :
    base p = if parts p = [] then [slash] else leaf p := by
  have hnames : ∀ c ∈ parts p, Plain c := fun c hc => h.plain hc
  have hdown := h.eq_down
  unfold leaf
  generalize parts p = cs at *
  subst hdown
  have hkeep : cs.filter (!·.isEmpty) = cs :=
    List.filter_eq_self.mpr fun c hc => by simpa using (hnames c hc).nonempty
  unfold base down
  rw [Text.splitOn, beq_self_eq_true, if_pos rfl, List.filter_cons_of_neg (by simp)]
  cases cs with
  | nil => rfl
  | cons c rest =>
    rw [Text.splitOn_join (by simp) fun d hd => (hnames d hd).slash, hkeep, if_neg (by simp),
      if_neg (by simp), List.getLast?_eq_some_getLast (List.cons_ne_nil c rest)]
    rfl

end Path

namespace Invocation

theorem target?_transform (id name commands source target : Text) :
    (transform id name commands source target).target? = some target := by
  simp [transform, target?, Text.stripPrefix?]

theorem source?_transform (id name commands source target : Text) :
    (transform id name commands source target).source? = some source := by
  simp [transform, source?, Text.stripPrefix?]

theorem source?_engine (id circuit : Text) (e : Engine) :
    (engine id circuit e).source? = some circuit := by
  simp [engine, engineCommands, source?, Text.stripPrefix?]

end Invocation

theorem Stage.slash_not_mem_name {s : Stage} (h : s.validate = .ok ()) : Path.slash ∉ s.name :=
  not_mem_name h (by decide)

namespace Verification

open Regatta.Path (Canonical Plain down leaf parts)

/-! ### The scratch directory -/

theorem canonical_workplace (b : Bench) (o : Options) : Canonical (workplace b o) :=
  b.canonical_absolute _

/-- A directory of a verification's own: it is one name below the place of work, and new. -/
structure Own (b : Bench) (o : Options) (d : Text) : Prop where
  canonical : Canonical d
  below : ∃ name, parts d = parts (workplace b o) ++ [name]
  absent : b.files.lookup (parts d) = none

/-- Such a directory has been made on the way from `b` to `b'`. -/
structure Scratch (b : Bench) (o : Options) (d : Text) (b' : Bench) : Prop extends Own b o d where
  located : b'.files.locate d = .ok (parts d)
  made : FileTree.Made (parts d) b.files b'.files

variable {b b' : Bench} {o : Options} {base front : Text}

theorem join_ending (hbase : Canonical base) (hfront : Path.slash ∉ front) (hdash : 45 ∈ front)
    (ending : Text) : Path.join [base, front] ++ ending = down (parts base ++ [front ++ ending]) := by
  have hplain : Plain front := Path.plain_of_mem hfront hdash (by decide)
  rw [Path.join_name hbase hplain (Path.parts_name hplain.toNamed), Path.down_append]

theorem makeScratch_made {d : Text} (hbase : Canonical base) (hfront : Path.slash ∉ front)
    (hdash : 45 ∈ front) (hendings : ∀ n, Path.slash ∉ b.randomEnding n) {tries : Nat}
    (h : makeScratch b base front tries = (b', .ok d)) :
    Canonical d ∧ (∃ name, parts d = parts base ++ [name]) ∧ b.files.lookup (parts d) = none ∧
      b.files.locate d = .ok (parts d) ∧ b'.files = b.files.insert (parts d) .directory := by
  induction tries generalizing b with
  | zero => cases h
  | succ tries ih =>
    have hplain : Plain (front ++ b.randomEnding b.drawn) :=
      Path.plain_of_mem (by simp [hfront, hendings]) (List.mem_append_left _ hdash) (by decide)
    have hnames := Path.forall_plain_concat hbase hplain
    rw [makeScratch, join_ending hbase hfront hdash] at h
    dsimp only at h
    have hcanonical := Path.canonical_down hnames
    split at h
    · cases h
    · rename_i l hlocated
      have hl := FileTree.locate_parts hcanonical hlocated
      subst hl
      split at h
      · exact ih (b := { b with drawn := b.drawn + 1 }) hendings h
      · rename_i hfree
        cases h
        exact ⟨hcanonical, ⟨_, Path.parts_of_plain hnames⟩, by simpa using hfree, hlocated, rfl⟩

theorem makeScratch_failed {f : Fault} {tries : Nat}
    (h : makeScratch b base front tries = (b', .error f)) : b'.files = b.files := by
  induction tries generalizing b with
  | zero =>
    cases h
    rfl
  | succ tries ih =>
    rw [makeScratch] at h
    dsimp only at h
    split at h
    · cases h
      rfl
    · split at h
      · exact (ih h).trans rfl
      · cases h

/-- The scratch directory is a new one below the place of work; nothing else is new but that place
and its parents. -/
theorem scratchDirectory_made {id d : Text} (hendings : ∀ n, Path.slash ∉ b.randomEnding n)
    (h : scratchDirectory b o id = (b', .ok d)) : Scratch b o d b' := by
  have hbase := canonical_workplace b o
  have hmade := FileTree.made_makeAll hbase b.files
  have hdash : 45 ∈ (if id.isEmpty then "verify-" else id ++ "-" : Text) := by
    split
    · decide
    · exact List.mem_append_right _ (List.mem_singleton.mpr rfl)
  unfold scratchDirectory at h
  dsimp only at h
  split at h
  · cases h
  · rename_i files hfiles
    rw [hfiles] at hmade
    generalize (if id.isEmpty then "verify-" else id ++ "-" : Text) = front at h hdash
    split at h
    · cases h
    · rename_i hslash
      have hfront : Path.slash ∉ front := fun hmem =>
        hslash (List.any_eq_true.mpr ⟨Path.slash, hmem, by decide⟩)
      obtain ⟨hcanonical, ⟨name, hname⟩, habsent, hlocated, hnew⟩ :=
        makeScratch_made (b := { b with files }) hbase hfront hdash hendings h
      have hne : parts d ≠ [] := by simp [hname]
      have hplace : parts (workplace b o) <+: parts d := hname ▸ List.prefix_append _ _
      refine ⟨⟨hcanonical, ⟨name, hname⟩, ?_⟩, ?_, ?_⟩
      · rcases hmade.lookup (parts d) with hsame | ⟨hnone, -⟩
        · exact hsame.symm.trans habsent
        · exact hnone
      · rw [hnew, ← hlocated]
        refine FileTree.locate_congr hcanonical fun k _ hk => ?_
        rw [FileTree.lookup_insert _ hne, if_neg hk]
      · rw [hnew]
        exact (hmade.weaken hplace).trans (FileTree.made_insert hne habsent (List.prefix_refl _))

theorem scratchDirectory_failed {id : Text} {f : Fault}
    (h : scratchDirectory b o id = (b', .error f)) :
    FileTree.Made (parts (workplace b o)) b.files b'.files := by
  have hmade := FileTree.made_makeAll (canonical_workplace b o) b.files
  unfold scratchDirectory at h
  dsimp only at h
  split at h <;> rename_i hfiles <;> rw [hfiles] at hmade
  · cases h
    exact hmade
  · generalize (if id.isEmpty then "verify-" else id ++ "-" : Text) = front at h
    split at h
    · cases h
      exact hmade
    · rw [makeScratch_failed h]
      exact hmade

/-! ### The files of the stages -/

section

variable {d source : Text} {s : Stage}

theorem parts_stage (hsource : Canonical source) (hname : Path.slash ∉ s.name) :
    Plain (s.name ++ "_" ++ leaf source) ∧
      parts (s.name ++ "_" ++ Path.base source) = [s.name ++ "_" ++ leaf source] := by
  have hplain : Plain (s.name ++ "_" ++ leaf source) := by
    have hmark : (95 : UInt8) ∈ Text.ofString "_" := by decide
    have hother : Path.slash ∉ Text.ofString "_" := by decide
    refine Path.plain_of_mem ?_ (List.mem_append_left _ (List.mem_append_right _ hmark)) (by decide)
    simp [hname, hother, Path.slash_not_mem_leaf]
  refine ⟨hplain, ?_⟩
  rw [Path.base_canonical hsource]
  split
  · rename_i hroot
    have hleaf : leaf source = [] := by simp [leaf, hroot]
    rw [hleaf, List.append_nil] at hplain ⊢
    exact Path.parts_name_slash hplain.toNamed
  · exact Path.parts_name hplain.toNamed

/-- A stage's file is right in the scratch directory, and its name tells the stage and the file that
is read. -/
theorem target_eq (hd : Canonical d) (hsource : Canonical source) (hname : Path.slash ∉ s.name) :
    target d s source = down (parts d ++ [s.name ++ "_" ++ leaf source]) :=
  Path.join_name hd (parts_stage hsource hname).1 (parts_stage hsource hname).2

theorem parts_target (hd : Canonical d) (hsource : Canonical source)
    (hname : Path.slash ∉ s.name) :
    parts (target d s source) = parts d ++ [s.name ++ "_" ++ leaf source] :=
  Path.parts_join hd (parts_stage hsource hname).1 (parts_stage hsource hname).2

theorem canonical_target (hd : Canonical d) : Canonical (target d s source) :=
  Path.canonical_join hd.isAbsolute _

theorem leaf_target (hd : Canonical d) (hsource : Canonical source)
    (hname : Path.slash ∉ s.name) : leaf (target d s source) = s.name ++ "_" ++ leaf source := by
  rw [leaf, parts_target hd hsource hname, List.getLast?_concat]
  rfl

/-- Names get longer. -/
theorem length_leaf_target (hd : Canonical d) (hsource : Canonical source)
    (hname : Path.slash ∉ s.name) : (leaf source).length < (leaf (target d s source)).length := by
  have hmark : (Text.ofString "_").length = 1 := rfl
  rw [leaf_target hd hsource hname, List.length_append, List.length_append, hmark]
  omega

end

def outputs (calls : List Invocation) : List Text := calls.filterMap Invocation.target?

theorem outputs_engines (id circuit : Text) (engines : List Engine) :
    outputs (engines.map (.engine id circuit)) = [] := by
  unfold outputs
  rw [List.filterMap_map]
  exact List.filterMap_eq_nil_iff.mpr fun _ _ => rfl

/-- The calls of a verification that starts from the file `input` keep out of each other's way. -/
structure Separate (scratch : Option Text) (input : Text) (calls : List Invocation) : Prop where
  within : ∀ p ∈ outputs calls, ∃ d name, scratch = some d ∧ Plain name ∧ p = d ++ "/" ++ name
  distinct : (outputs calls).Nodup
  input : input ∉ outputs calls
  apart : ∀ i ∈ calls, i.source? ≠ i.target?

theorem separate_engines (scratch : Option Text) (input id circuit : Text)
    (engines : List Engine) : Separate scratch input (engines.map (.engine id circuit)) where
  within := by simp [outputs_engines]
  distinct := by simp [outputs_engines]
  input := by simp [outputs_engines]
  apart i hi := by
    obtain ⟨e, -, rfl⟩ := List.mem_map.mp hi
    rw [Invocation.source?_engine]
    exact Option.some_ne_none circuit

theorem outputs_stageCall (r : Request) (d source : Text) (s : Stage) (calls : List Invocation) :
    outputs (stageCall r d source s :: calls) = target d s source :: outputs calls :=
  List.filterMap_cons_some (Invocation.target?_transform ..)

/-- The calls keep out of each other's way, and the names of their files are longer than that of the
file they start from. -/
def Growing (d source : Text) (calls : List Invocation) : Prop :=
  Separate (some d) source calls ∧ ∀ p ∈ outputs calls, (leaf source).length < (leaf p).length

theorem growing_engines (d source id circuit : Text) (engines : List Engine) :
    Growing d source (engines.map (.engine id circuit)) := by
  refine ⟨separate_engines .., fun p hp => ?_⟩
  rw [outputs_engines] at hp
  exact absurd hp List.not_mem_nil

theorem Growing.cons {d source : Text} {s : Stage} {calls : List Invocation} (hd : Canonical d)
    (hne : parts d ≠ []) (hsource : Canonical source) (hname : Path.slash ∉ s.name)
    (h : Growing d (target d s source) calls) (r : Request) :
    Growing d source (stageCall r d source s :: calls) := by
  obtain ⟨hseparate, hlonger⟩ := h
  have hlength := length_leaf_target hd hsource hname
  have hother : source ≠ target d s source := fun heq => by
    rw [← heq] at hlength
    exact Nat.lt_irrefl _ hlength
  have hlengths : ∀ p ∈ outputs (stageCall r d source s :: calls),
      (leaf source).length < (leaf p).length := by
    rw [outputs_stageCall]
    exact List.forall_mem_cons.mpr ⟨hlength, fun p hp => hlength.trans (hlonger p hp)⟩
  refine ⟨⟨?_, ?_, fun hmem => Nat.lt_irrefl _ (hlengths source hmem), ?_⟩, hlengths⟩
  · rw [outputs_stageCall]
    refine List.forall_mem_cons.mpr
      ⟨⟨d, _, rfl, (parts_stage hsource hname).1, ?_⟩, hseparate.within⟩
    rw [target_eq hd hsource hname, Path.down_concat hd hne]
  · rw [outputs_stageCall]
    exact List.nodup_cons.mpr ⟨hseparate.input, hseparate.distinct⟩
  · refine List.forall_mem_cons.mpr ⟨?_, hseparate.apart⟩
    rw [stageCall, Invocation.source?_transform, Invocation.target?_transform]
    exact fun heq => hother (Option.some.inj heq)

/-- **The stages of a relay write to different files, none of which is the one it starts from.** -/
theorem Relay.growing {cancelAt : Option Instant} {budget : Duration} {r : Request}
    {d source : Text} {stages : List Stage} {calls : List Invocation} {outcome : Option Outcome}
    (h : Relay cancelAt budget r d b source stages calls outcome) (hd : Canonical d)
    (hne : parts d ≠ []) (hsource : Canonical source)
    (hnames : ∀ s ∈ stages, Path.slash ∉ s.name) : Growing d source calls := by
  induction h with
  | race b source => exact growing_engines d source r.id source r.engines
  | onward _ _ _ ih =>
    obtain ⟨hname, hrest⟩ := List.forall_mem_cons.mp hnames
    exact (ih (canonical_target hd) hrest).cons hd hne hsource hname r
  | stops =>
    obtain ⟨hname, -⟩ := List.forall_mem_cons.mp hnames
    exact (growing_engines d _ r.id "" []).cons hd hne hsource hname r

end Verification
end Regatta
