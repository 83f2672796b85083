import Regatta.Proofs.Scratch

/-! How the tool understands its scripts.

The tool takes a script apart at the semicolons and trims what is between them (`pieces`). A script
that is made of commands comes apart into what each of them comes apart into (`pieces_ofCommands`).
So a command with a path in it is taken as it is exactly when the path is `Tame`: it has no
semicolon in it and does not end in white space (`pieces_path`). Paths are not looked at before they
become part of a script. `run_understood` says for which paths every call of a verification is
understood. -/
namespace Regatta

namespace Text

theorem splitOn_glue_front {sep : UInt8} {w t first : Text} {more : List Text} (hw : sep ∉ w)
    (h : splitOn sep t = first :: more) : splitOn sep (w ++ t) = (w ++ first) :: more := by
  have hpieces : ∀ p ∈ first :: more, sep ∉ p := fun p hp => not_mem_of_splitOn (h ▸ hp)
  have hjoin : w ++ t = join [sep] ((w ++ first) :: more) := by
    rw [← join_splitOn sep t, h]
    cases more with
    | nil => rfl
    | cons second more => simp only [join, List.append_assoc]
  rw [hjoin, splitOn_join (List.cons_ne_nil _ _)]
  refine List.forall_mem_cons.mpr ⟨?_, fun p hp => hpieces p (List.mem_cons_of_mem _ hp)⟩
  simpa using ⟨hw, hpieces first (List.mem_cons_self ..)⟩

theorem splitOn_glue_back {sep : UInt8} {w t last : Text} {front : List Text} (hw : sep ∉ w)
    (h : splitOn sep t = front ++ [last]) : splitOn sep (t ++ w) = front ++ [last ++ w] := by
  have hlast : sep ∉ last :=
    not_mem_of_splitOn (h ▸ List.mem_append_right _ (List.mem_singleton_self last))
  rw [splitOn_append_last h, splitOn_of_not_mem (by simpa using ⟨hlast, hw⟩)]

end Text

namespace Script

open Text (Blank Mark)

/-- What is between the semicolons of a script, trimmed. -/
def pieces (script : Text) : List Text := (Text.splitOn (Text.byte ';') script).map Text.trim

theorem mark_semicolon : Mark (Text.byte ';') := ⟨by decide, by decide⟩

theorem pieces_ne_nil (t : Text) : pieces t ≠ [] := by
  simpa [pieces] using Text.splitOn_ne_nil _ t

theorem pieces_blank_append {w : Text} (h : Blank w) (t : Text) : pieces (w ++ t) = pieces t := by
  obtain ⟨first, more, hsplit⟩ := List.exists_cons_of_ne_nil (Text.splitOn_ne_nil (Text.byte ';') t)
  unfold pieces
  rw [Text.splitOn_glue_front (h.not_mem mark_semicolon) hsplit, hsplit, List.map_cons,
    List.map_cons, Text.trim_blank_append h]

theorem pieces_append_blank (t : Text) {w : Text} (h : Blank w) : pieces (t ++ w) = pieces t := by
  obtain ⟨front, last, hsplit⟩ : ∃ front last, Text.splitOn (Text.byte ';') t = front ++ [last] :=
    ⟨_, _, (List.dropLast_concat_getLast (Text.splitOn_ne_nil _ t)).symm⟩
  unfold pieces
  rw [Text.splitOn_glue_back (h.not_mem mark_semicolon) hsplit, hsplit, List.map_append,
    List.map_append, List.map_singleton, List.map_singleton, Text.trim_append_blank last h]

/-- White space around a script makes no difference. -/
theorem pieces_trim (t : Text) : pieces t.trim = pieces t := by
  obtain ⟨front, back, hsplit, hfront, hback⟩ := Text.exists_trim t
  have hwhole := congrArg pieces hsplit
  rw [pieces_append_blank _ hback, pieces_blank_append hfront] at hwhole
  exact hwhole.symm

theorem pieces_join {ts : List Text} (hne : ts ≠ []) :
    pieces (Text.join "; " ts) = ts.flatMap pieces := by
  induction ts with
  | nil => contradiction
  | cons t rest ih =>
    by_cases hrest : rest = []
    · rw [hrest]
      exact (List.append_nil _).symm
    · have hblank : Blank [32] := by
        unfold Text.Blank
        decide
      have hnext := pieces_blank_append hblank (Text.join "; " rest)
      rw [Text.join_cons _ _ hrest, List.flatMap_cons, ← ih hrest, ← hnext, List.append_assoc]
      unfold pieces
      rw [← List.map_append, ← Text.splitOn_sep]
      rfl

/-- The commands that are left of a list: trimmed, and none of them blank. -/
def visible (cs : List Text) : List Text := (cs.map Text.trim).filter (!·.isEmpty)

theorem ofCommands_eq (cs : List Text) : ofCommands cs = Text.join "; " (visible cs) := rfl

theorem commands_eq (script : Text) : commands script = (pieces script).filter (!·.isEmpty) := rfl

theorem pieces_ofCommands {cs : List Text} (hne : cs ≠ []) (h : ∀ c ∈ cs, c.trim ≠ []) :
    pieces (ofCommands cs) = cs.flatMap pieces := by
  have hkept : visible cs = cs.map Text.trim := by
    refine List.filter_eq_self.mpr fun c hc => ?_
    obtain ⟨c, hmem, rfl⟩ := List.mem_map.mp hc
    simpa using h c hmem
  rw [ofCommands_eq, hkept, pieces_join (by simpa using hne), List.flatMap_map]
  simp only [pieces_trim]

theorem semicolon_not_mem {t piece : Text} (h : piece ∈ pieces t) : Text.byte ';' ∉ piece := by
  obtain ⟨part, hpart, rfl⟩ := List.mem_map.mp h
  exact fun hmem => Text.not_mem_of_splitOn hpart (Text.mem_of_mem_trim hmem)

/-! ### There and back -/

section
variable {cs : List Text}

theorem mem_visible {c : Text} : c ∈ visible cs ↔ c ≠ [] ∧ ∃ d ∈ cs, d.trim = c := by
  simp [visible, and_comm]

theorem pieces_visible (h : ∀ c ∈ cs, Text.byte ';' ∉ c) :
    (visible cs).flatMap pieces = visible cs := by
  have hself : ∀ c ∈ visible cs, pieces c = [c] := by
    intro c hc
    obtain ⟨-, d, hd, rfl⟩ := mem_visible.mp hc
    rw [pieces, Text.splitOn_of_not_mem fun hmem => h d hd (Text.mem_of_mem_trim hmem),
      List.map_singleton, Text.trim_trim]
  rw [List.flatMap_def, List.map_congr_left hself, ← List.flatMap_def, List.flatMap_singleton']

theorem ofCommands_eq_nil : ofCommands cs = [] ↔ visible cs = [] := by
  refine ⟨fun h => ?_, fun h => by rw [ofCommands_eq, h]; rfl⟩
  by_contra hne
  obtain ⟨c, hc⟩ := List.exists_mem_of_ne_nil _ hne
  obtain ⟨b, hb⟩ := List.exists_mem_of_ne_nil c (mem_visible.mp hc).1
  have hmem : b ∈ ofCommands cs := Text.mem_join_of_mem hc hb
  rw [h] at hmem
  cases hmem

theorem commands_ofCommands (h : ∀ c ∈ cs, Text.byte ';' ∉ c) :
    commands (ofCommands cs) = visible cs := by
  by_cases hnone : visible cs = []
  · rw [ofCommands_eq_nil.mpr hnone, hnone]
    decide +kernel
  · rw [commands_eq, ofCommands_eq, pieces_join hnone, pieces_visible h, visible, List.filter_filter]
    simp only [Bool.and_self]

end

theorem ofCommands_append (xs ys : List Text) : ofCommands (xs ++ ys) =
    if ofCommands xs = [] then ofCommands ys
    else if ofCommands ys = [] then ofCommands xs
    else ofCommands xs ++ "; " ++ ofCommands ys := by
  have happend : ofCommands (xs ++ ys) = Text.join "; " (visible xs ++ visible ys) := by
    simp [ofCommands_eq, visible]
  simp only [ofCommands_eq_nil, happend]
  split
  · rename_i hxs
    rw [hxs, List.nil_append, ofCommands_eq]
  · rename_i hxs
    split
    · rename_i hys
      rw [hys, List.append_nil, ofCommands_eq]
    · rename_i hys
      exact Text.join_append _ hxs hys

/-- **A script comes apart into the commands that it was made of**, as far as they can be seen, and
scripts are put together as their commands are. -/
theorem ofCommands_comes_apart (xs ys : List Text) :
    ((∀ c ∈ xs, Text.byte ';' ∉ c) → commands (ofCommands xs) = visible xs) ∧
    (ofCommands (xs ++ ys) =
      if ofCommands xs = [] then ofCommands ys
      else if ofCommands ys = [] then ofCommands xs
      else ofCommands xs ++ "; " ++ ofCommands ys) ∧
    ((∀ c ∈ xs ++ ys, Text.byte ';' ∉ c) →
      (ofCommands xs = ofCommands ys ↔ visible xs = visible ys)) := by
  refine ⟨commands_ofCommands, ofCommands_append xs ys, fun h => ⟨fun heq => ?_, fun heq => ?_⟩⟩
  · obtain ⟨hxs, hys⟩ := List.forall_mem_append.mp h
    rw [← commands_ofCommands hxs, heq, commands_ofCommands hys]
  · exact congrArg (Text.join "; ") heq

theorem ofCommands_comes_apart_blanks :
    commands (ofCommands ["\u00a0dc2 ", "", " \t", "a b"]) = (["dc2", "a b"] : List Text) := by
  have hwhole : ∀ c ∈ (["\u00a0dc2 ", "", " \t", "a b"] : List Text), Text.byte ';' ∉ c := by decide
  rw [(ofCommands_comes_apart _ []).1 hwhole]
  decide +kernel

/-! ### Paths in scripts -/

/-- A path that is taken as it is. -/
structure Tame (p : Text) : Prop where
  whole : Text.byte ';' ∉ p
  bare : p.trim = p

instance (p : Text) : Decidable (Tame p) :=
  decidable_of_iff (Text.byte ';' ∉ p ∧ p.trim = p) ⟨fun h => ⟨h.1, h.2⟩, fun h => ⟨h.1, h.2⟩⟩

theorem mark_slash : Mark Path.slash := ⟨by decide, by decide⟩

theorem cons_of_isAbsolute {p : Text} (h : Path.isAbsolute p = true) :
    ∃ v, p = Path.slash :: v := by
  cases p with
  | nil => cases h
  | cons b v => exact ⟨v, by simpa [Path.isAbsolute] using h⟩

/-- The words that come before a path. -/
structure Verb (w : Text) : Prop where
  mark : ∃ a rest, w = a :: rest ∧ Mark a
  whole : Text.byte ';' ∉ w

theorem verb_read : Verb "read " := ⟨⟨_, _, rfl, by decide, by decide⟩, by decide⟩

theorem verb_write : Verb "write " := ⟨⟨_, _, rfl, by decide, by decide⟩, by decide⟩

section
variable {w p : Text}

theorem trim_path (hw : Verb w) (hp : Path.isAbsolute p = true) : (w ++ p).trim = w ++ p.trim := by
  obtain ⟨a, rest, rfl, ha⟩ := hw.mark
  obtain ⟨v, rfl⟩ := cons_of_isAbsolute hp
  exact Text.trim_append_mark ha mark_slash rest v

/-- A command with a path is taken as it is exactly when its path is. -/
theorem pieces_path (hw : Verb w) (hp : Path.isAbsolute p = true) :
    pieces (w ++ p) = [w ++ p] ↔ Tame p := by
  constructor
  · intro h
    have hnone : Text.byte ';' ∉ w ++ p := semicolon_not_mem (h ▸ List.mem_singleton_self _)
    refine ⟨fun hmem => hnone (List.mem_append_right _ hmem), ?_⟩
    rw [pieces, Text.splitOn_of_not_mem hnone, List.map_singleton, trim_path hw hp] at h
    exact List.append_cancel_left (List.singleton_inj.mp h)
  · intro h
    rw [pieces, Text.splitOn_of_not_mem (by simpa using ⟨hw.whole, h.whole⟩), List.map_singleton,
      trim_path hw hp, h.bare]

theorem trim_path_ne_nil (hw : Verb w) (hp : Path.isAbsolute p = true) : (w ++ p).trim ≠ [] := by
  rw [trim_path hw hp]
  obtain ⟨a, rest, rfl, -⟩ := hw.mark
  exact List.cons_ne_nil _ _

end
end Script

/-! ### Calls -/

/-- The first and the last command of a call are taken as they are, and what is between them as it
is by itself. -/
def Invocation.Understood (i : Invocation) : Prop := ∃ first middle last,
  i.commands = [first, middle, last] ∧
    Script.pieces i.script = first :: (Script.pieces middle ++ [last])

namespace Script

theorem pieces_name {e : Engine} (h : e.runnable = true) :
    pieces e.name = [e.name] ∧ e.name.trim ≠ [] := by
  have hall : ∀ e ∈ Engine.all, pieces e.name = [e.name] ∧ e.name.trim ≠ [] := by decide +kernel
  exact hall e (List.contains_iff_mem.mp h)

variable {p source target commands : Text} {e : Engine}

variable (id name : Text)

theorem pieces_engine (hp : Path.isAbsolute p = true) (he : e.runnable = true) :
    pieces (Invocation.engine id p e).script = ["read " ++ p, e.name, "print_stats"] ↔ Tame p := by
  have hlast : pieces "print_stats" = [Text.ofString "print_stats"] ∧
      Text.trim "print_stats" ≠ [] := by decide +kernel
  have hscript : pieces (Invocation.engine id p e).script =
      pieces ("read " ++ p) ++ [e.name, Text.ofString "print_stats"] := by
    unfold Invocation.script Invocation.engine Invocation.engineCommands
    rw [pieces_ofCommands (List.cons_ne_nil _ _)]
    · simp only [List.flatMap_cons, List.flatMap_nil, (pieces_name he).1, hlast.1]
      rfl
    · simpa using ⟨trim_path_ne_nil verb_read hp, (pieces_name he).2, hlast.2⟩
  rw [hscript, ← pieces_path verb_read hp]
  have hthree : [Text.ofString "read " ++ p, e.name, Text.ofString "print_stats"] =
      [Text.ofString "read " ++ p] ++ [e.name, Text.ofString "print_stats"] := rfl
  rw [hthree, List.append_left_inj]

theorem length_pieces_pos (t : Text) : 0 < (pieces t).length :=
  List.length_pos_iff.mpr (pieces_ne_nil t)

theorem pieces_transform (hsource : Path.isAbsolute source = true)
    (htarget : Path.isAbsolute target = true) (hcommands : commands.trim ≠ []) :
    pieces (Invocation.transform id name commands source target).script =
      ("read " ++ source) :: (pieces commands ++ ["write " ++ target]) ↔
      Tame source ∧ Tame target := by
  have hscript : pieces (Invocation.transform id name commands source target).script =
      pieces ("read " ++ source) ++ (pieces commands ++ pieces ("write " ++ target)) := by
    unfold Invocation.script Invocation.transform
    rw [pieces_ofCommands (List.cons_ne_nil _ _)]
    · simp only [List.flatMap_cons, List.flatMap_nil, List.append_nil]
    · simpa using
        ⟨trim_path_ne_nil verb_read hsource, hcommands, trim_path_ne_nil verb_write htarget⟩
  rw [hscript, ← pieces_path verb_read hsource, ← pieces_path verb_write htarget]
  constructor
  · intro h
    -- both paths make at least one piece each, and there is room for one each
    have hlengths := congrArg List.length h
    simp only [List.length_append, List.length_cons, List.length_nil] at hlengths
    have hfirst := length_pieces_pos (Text.ofString "read " ++ source)
    have hlast := length_pieces_pos (Text.ofString "write " ++ target)
    rw [← List.singleton_append] at h
    obtain ⟨hread, hrest⟩ := List.append_inj h (by rw [List.length_singleton]; omega)
    exact ⟨hread, List.append_cancel_left hrest⟩
  · rintro ⟨hread, hwrite⟩
    rw [hread, hwrite]
    rfl

theorem understood_engine (hp : Path.isAbsolute p = true) (he : e.runnable = true) :
    (Invocation.engine id p e).Understood ↔ Tame p := by
  rw [← pieces_engine id hp he]
  constructor
  · rintro ⟨first, middle, last, hcommands, hpieces⟩
    cases hcommands
    rwa [(pieces_name he).1] at hpieces
  · exact fun h => ⟨_, _, _, rfl, by rw [h, (pieces_name he).1]; rfl⟩

theorem understood_transform (hsource : Path.isAbsolute source = true)
    (htarget : Path.isAbsolute target = true) (hcommands : commands.trim ≠ []) :
    (Invocation.transform id name commands source target).Understood ↔
      Tame source ∧ Tame target := by
  rw [← pieces_transform id name hsource htarget hcommands]
  constructor
  · rintro ⟨first, middle, last, hthree, hpieces⟩
    cases hthree
    exact hpieces
  · exact fun h => ⟨_, _, _, rfl, h⟩

end Script

namespace Verification

open Regatta.Path (Canonical down leaf parts)
open Script (Tame)

/-! ### The files of the stages -/

section
variable {d source : Text} {s : Stage}

theorem mem_down {cs : List Text} {c : Text} {b : UInt8} (hc : c ∈ cs) (hb : b ∈ c) : b ∈ down cs :=
  List.mem_cons_of_mem _ (Text.mem_join_of_mem hc hb)

theorem mem_of_leaf (hsource : Canonical source) {b : UInt8} (h : b ∈ leaf source) :
    b ∈ source := by
  rw [hsource.eq_down]
  unfold leaf at h
  cases hlast : (parts source).getLast? with
  | none =>
    rw [hlast] at h
    cases h
  | some c =>
    rw [hlast] at h
    exact mem_down (List.mem_of_getLast? hlast) h

theorem exists_leaf (hsource : Canonical source) :
    ∃ before, source = before ++ Path.slash :: leaf source := by
  have hdown := hsource.eq_down
  unfold leaf
  by_cases hroot : parts source = []
  · rw [hroot] at hdown ⊢
    exact ⟨[], hdown⟩
  · obtain ⟨front, c, hparts⟩ : ∃ front c, parts source = front ++ [c] :=
      ⟨_, _, (List.dropLast_concat_getLast hroot).symm⟩
    rw [hparts] at hdown ⊢
    rw [List.getLast?_concat, Option.getD_some, hdown]
    exact Path.exists_down front c

theorem mem_parts (hd : Canonical d) {b : UInt8} (hb : b ∈ d) (hslash : b ≠ Path.slash) :
    ∃ c ∈ parts d, b ∈ c := by
  rw [hd.eq_down] at hb
  rcases List.mem_cons.mp hb with heq | hb
  · exact absurd heq hslash
  · exact (Text.mem_join hb).resolve_left (by simpa using hslash)

theorem semicolon_mem_target (hd : Canonical d) (hsource : Canonical source)
    (hs : s.validate = .ok ()) (h : Text.byte ';' ∉ source) :
    Text.byte ';' ∈ target d s source ↔ Text.byte ';' ∈ d := by
  have hslash := Stage.slash_not_mem_name hs
  constructor
  · intro hmem
    obtain ⟨c, hc, hb⟩ := mem_parts (canonical_target hd) hmem (by decide)
    rw [parts_target hd hsource hslash] at hc
    rcases List.mem_append.mp hc with hc | hc
    · exact hd.eq_down ▸ mem_down hc hb
    · rw [List.mem_singleton.mp hc] at hb
      rcases List.mem_append.mp hb with hb | hb
      · rcases List.mem_append.mp hb with hb | hb
        · exact absurd hb (Stage.not_mem_name hs (by decide))
        · exact absurd hb (by decide)
      · exact absurd (mem_of_leaf hsource hb) h
  · intro hmem
    obtain ⟨c, hc, hb⟩ := mem_parts hd hmem (by decide)
    exact target_eq hd hsource hslash ▸ mem_down (List.mem_append_left _ hc) hb

theorem bare_target (hd : Canonical d) (hsource : Canonical source) (hs : s.validate = .ok ())
    (h : Text.Bare source.runes) : Text.Bare (target d s source).runes := by
  refine ⟨fun r hr => ?_, fun r hr => ?_⟩
  · have hcanonical : Canonical (target d s source) := canonical_target hd
    obtain ⟨v, hv⟩ := Script.cons_of_isAbsolute hcanonical.isAbsolute
    rw [hv, Text.runes_mark Script.mark_slash] at hr
    cases hr
    rfl
  · have hmark : Text.Mark 95 := ⟨by decide, by decide⟩
    obtain ⟨before, hbefore⟩ := exists_leaf hsource
    have hends : target d s source = down (parts d ++ [s.name]) ++ 95 :: leaf source := by
      rw [target_eq hd hsource (Stage.slash_not_mem_name hs), ← Path.down_append,
        ← Path.down_append, List.append_assoc]
      rfl
    have hlast := h.last r
    rw [hbefore, Text.getLast?_runes_mark Script.mark_slash] at hlast
    rw [hends, Text.getLast?_runes_mark hmark] at hr
    cases hleaf : (leaf source).runes.getLast? with
    | none =>
      rw [hleaf] at hr
      cases hr
      rfl
    | some x =>
      rw [hleaf] at hr hlast
      exact hlast hr

/-- The file of a stage that reads a tame path has a tame path exactly when there is no semicolon in
that of the scratch directory. -/
theorem tame_target (hd : Canonical d) (hsource : Canonical source) (hs : s.validate = .ok ())
    (h : Tame source) : Tame (target d s source) ↔ Text.byte ';' ∉ d := by
  have hbare : Text.Bare source.runes := h.bare ▸ Text.bare_trim source
  rw [← semicolon_mem_target hd hsource hs h.whole]
  exact ⟨Tame.whole, fun hwhole => ⟨hwhole, Text.trim_of_bare (bare_target hd hsource hs hbare)⟩⟩

end

/-! ### All calls of a verification -/

theorem understood_stageCall {d source : Text} {s : Stage} (r : Request) (hd : Canonical d)
    (hsource : Canonical source) (hs : s.validate = .ok ()) :
    (stageCall r d source s).Understood ↔ Tame source ∧ Text.byte ';' ∉ d := by
  have htarget : Canonical (target d s source) := canonical_target hd
  unfold stageCall
  rw [Script.understood_transform r.id s.name hsource.isAbsolute htarget.isAbsolute
    (Stage.validate_eq_ok.mp hs).2.2]
  exact and_congr_right fun h => tame_target hd hsource hs h

/-- **All calls of a relay are understood exactly when it starts from a tame path**, and there is no
semicolon in that of the scratch directory either, if there are stages. -/
theorem Relay.understood {cancelAt : Option Instant} {budget : Duration} {r : Request} {b : Bench}
    {d source : Text} {stages : List Stage} {calls : List Invocation} {outcome : Option Outcome}
    (h : Relay cancelAt budget r d b source stages calls outcome) (hsource : Canonical source)
    (hd : stages ≠ [] → Canonical d) (hstages : ∀ s ∈ stages, s.validate = .ok ())
    (hengines : ∀ e ∈ r.engines, e.runnable = true) :
    (∀ i ∈ calls, i.Understood) ↔
      calls = [] ∨ Tame source ∧ (stages = [] ∨ Text.byte ';' ∉ d) := by
  induction h with
  | race b source =>
    have hcall : ∀ e ∈ r.engines, (Invocation.engine r.id source e).Understood ↔ Tame source :=
      fun e he => Script.understood_engine r.id hsource.isAbsolute (hengines e he)
    by_cases hnone : r.engines = []
    · simp [hnone]
    · obtain ⟨e, he⟩ := List.exists_mem_of_ne_nil _ hnone
      simp only [List.map_eq_nil_iff, hnone, false_or, true_or, and_true]
      refine ⟨fun h => (hcall e he).mp (h _ (List.mem_map_of_mem he)), fun h i hi => ?_⟩
      obtain ⟨x, hx, rfl⟩ := List.mem_map.mp hi
      exact (hcall x hx).mpr h
  | onward _ _ _ ih =>
    have hd' := hd (List.cons_ne_nil _ _)
    obtain ⟨hs, hrest⟩ := List.forall_mem_cons.mp hstages
    rw [List.forall_mem_cons, understood_stageCall r hd' hsource hs,
      ih (canonical_target hd') (fun _ => hd') hrest]
    simp only [List.cons_ne_nil, false_or]
    refine ⟨fun h => h.1, fun h => ⟨h, .inr ⟨(tame_target hd' hsource hs h.1).mpr h.2, .inr h.2⟩⟩⟩
  | stops =>
    obtain ⟨hs, -⟩ := List.forall_mem_cons.mp hstages
    rw [List.forall_mem_singleton, understood_stageCall r (hd (List.cons_ne_nil _ _)) hsource hs]
    simp only [List.cons_ne_nil, false_or]

/-- The path of the circuit is tame, and so will be those of what the stages write. -/
def Speakable (b : Bench) (o : Options) (r : Request) : Prop :=
  Tame (b.absolute r.circuit) ∧
    (r.stages = [] ∨ ∀ d, (scratchDirectory b o r.id).2 = .ok d → Text.byte ';' ∉ d)

/-- A call of an engine is taken for its three commands, and one of a stage for what the stage says
between reading and writing, exactly when their paths are tame. So either a verification calls
nothing, or its calls are all understood exactly when the path of the circuit is tame and there is
no semicolon in that of the scratch directory, if it makes one. -/
theorem run_understood (b : Bench) (o : Options) (r : Request) (cancelAt : Option Instant)
    (hengines : ∀ e ∈ r.engines, e.runnable = true)
    (hendings : ∀ n, Path.slash ∉ b.randomEnding n) :
    (∀ e ∈ r.engines, ∀ p, Path.isAbsolute p = true →
      (Script.pieces (Invocation.engine r.id p e).script =
        ["read " ++ p, e.name, "print_stats"] ↔ Tame p)) ∧
    (∀ (s : Stage) (d source : Text), s.validate = .ok () → Path.isAbsolute d = true →
      Path.isAbsolute source = true →
      (Script.pieces (stageCall r d source s).script =
        ("read " ++ source) :: (Script.pieces s.commands ++ ["write " ++ target d s source]) ↔
        Tame source ∧ Tame (target d s source))) ∧
    ∃ calls, (run b o r cancelAt).bench.invoked = calls.reverse ++ b.invoked ∧
      ((∀ i ∈ calls, i.Understood) ↔ calls = [] ∨ Speakable b o r) := by
  refine ⟨fun e he p hp => Script.pieces_engine r.id hp (hengines e he),
    fun s d source hs hd hp => ?_, ?_⟩
  · exact Script.pieces_transform r.id s.name hp (Path.canonical_join hd _).isAbsolute
      (Stage.validate_eq_ok.mp hs).2.2
  have hcircuit := b.canonical_absolute r.circuit
  obtain ⟨calls, hconduct, hcalls⟩ := exists_conduct b o r cancelAt
  refine ⟨calls, hcalls, ?_⟩
  generalize run b o r cancelAt = record at hconduct
  cases hconduct with
  | invalid | unplaced => simp
  | direct hnil hrelay =>
    rw [hrelay.understood hcircuit (fun h => absurd rfl h) (by simp) hengines]
    simp [Speakable, hnil]
  | staged hvalid _ hscratch hrelay =>
    have hd := (scratchDirectory_made hendings hscratch).canonical
    rw [hrelay.understood hcircuit (fun _ => hd) hvalid hengines]
    simp [Speakable, hscratch]

theorem run_understood_two_stages : ∃ calls : List Invocation,
    (run obligingBench ⟨"/w", 0⟩ twoStages none).bench.invoked = calls.reverse ∧
      ∀ i ∈ calls, i.Understood := by
  obtain ⟨calls, hcalls, hiff⟩ := (run_understood obligingBench ⟨"/w", 0⟩ twoStages none (by decide)
    fun _ => show Path.slash ∉ Text.ofString "1" by decide).2.2
  refine ⟨calls, hcalls.trans (List.append_nil _), hiff.mpr (.inr ⟨by decide +kernel, .inr ?_⟩)⟩
  intro d hd
  have hscratch : (scratchDirectory obligingBench ⟨"/w", 0⟩ twoStages.id).2 =
      .ok (Text.ofString "/w/run-1") := rfl
  rw [hscratch] at hd
  cases hd
  decide

/-- A path with a semicolon makes a command of its own, and one that ends in white space is taken
for another. -/
theorem pieces_wild_paths :
    Script.pieces (Invocation.engine "r" "/a;quit.aig" .pdr).script =
      (["read /a", "quit.aig", "pdr", "print_stats"] : List Text) ∧
    Script.pieces (Invocation.engine "r" "/a.aig " .pdr).script =
      (["read /a.aig", "pdr", "print_stats"] : List Text) := by
  decide +kernel

end Verification
end Regatta
