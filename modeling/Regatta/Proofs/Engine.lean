import Mathlib.Data.List.Forall2
import Mathlib.Data.List.Perm.Subperm
import Regatta.Proofs.Text.Split
import Regatta.Store.Basic

/-! Names of engines, and lists of them.

A name denotes an engine when it is the engine's own name but for letter case and white space around
it. A list of names is read as the engines that the names denote, one for each and in their order
(`parseList_ok_iff`); it is refused for the first name that denotes none or the engine of a name
before it (`parseList_error_iff`). A list that was read is read again from the names of its engines,
also where they stand in a column of the store (`parseList_names`, `splitEngines_joinEngines`). -/
namespace Regatta.Engine

/-! ### One name -/

/-- A spelling of the engine's name. -/
def Denotes (t : Text) (e : Engine) : Prop := e ∈ all ∧ t.trim.lower = e.name

theorem name_injOn : ∀ e ∈ all, ∀ e' ∈ all, e.name = e'.name → e = e' := by
  decide

variable {t : Text} {e e' : Engine} {x : ParseError}

theorem Denotes.unique (h : Denotes t e) (h' : Denotes t e') : e = e' :=
  name_injOn e h.1 e' h'.1 (h.2.symm.trans h'.2)

theorem parse_eq_ok_iff : parse t = .ok e ↔ Denotes t e := by
  unfold parse
  dsimp only
  split
  · rename_i found hfind
    have hname := List.find?_some hfind
    have hfound : Denotes t found :=
      ⟨List.mem_of_find?_eq_some hfind, (beq_iff_eq.mp hname).symm⟩
    constructor
    · rintro ⟨⟩
      exact hfound
    · intro h
      rw [hfound.unique h]
  · rename_i hnone
    refine ⟨fun h => (by cases h), fun h => ?_⟩
    exact absurd (beq_iff_eq.mpr h.2.symm) (List.find?_eq_none.mp hnone e h.1)

theorem parse_eq_error_iff : parse t = .error x ↔ x = .unknown t ∧ ∀ e, ¬ Denotes t e := by
  cases hp : parse t with
  | ok e =>
    refine ⟨fun h => (by cases h), fun h => absurd (parse_eq_ok_iff.mp hp) (h.2 e)⟩
  | error y =>
    have hy : y = .unknown t := by
      unfold parse at hp
      dsimp only at hp
      split at hp <;> cases hp
      rfl
    have hnone (e : Engine) : ¬ Denotes t e := fun h => by
      rw [parse_eq_ok_iff.mpr h] at hp
      cases hp
    rw [hy, Except.error.injEq, eq_comm]
    exact ⟨fun h => ⟨h, hnone⟩, And.left⟩

theorem mem_of_parse (h : parse t = .ok e) : e ∈ all := (parse_eq_ok_iff.mp h).1

theorem denotes_name (h : e ∈ all) : Denotes e.name e := by
  refine ⟨h, ?_⟩
  revert e
  decide +kernel

theorem parse_name (h : e ∈ all) : parse e.name = .ok e := parse_eq_ok_iff.mpr (denotes_name h)

theorem name_ne_nil (h : e ∈ all) : e.name ≠ [] := by
  revert e
  decide

theorem comma_not_mem_name (h : e ∈ all) : Text.byte ',' ∉ e.name := by
  revert e
  decide

/-! ### The text form -/

theorem ofText_name (h : e = none ∨ e ∈ all) : ofText e.name = .ok e := by
  rcases h with rfl | h
  · rfl
  · unfold ofText
    rw [if_neg (by simpa using name_ne_nil h), parse_name h]

theorem mem_of_ofText (h : ofText t = .ok e) : e = none ∨ e ∈ all := by
  unfold ofText at h
  split at h
  · cases h
    exact .inl rfl
  · exact .inr (mem_of_parse h)

/-- A variable takes on what a text form says, and keeps what it held if that is nothing. -/
theorem run_load (t : Text) (held : Engine) : (load t).run held =
    match ofText t with
    | .ok e => .ok () e
    | .error x => .error x held := by
  unfold load ofText
  split
  · rfl
  · cases parse t <;> rfl

/-! ### Lists of names -/

variable {seen es : List Engine} {n : Text} {names rest : List Text}

theorem parseAfter_cons (h : parseAfter seen (n :: rest) = .ok es) :
    ∃ e more, es = e :: more ∧ parse n = .ok e ∧ e ∉ seen ∧
      parseAfter (e :: seen) rest = .ok more := by
  rw [parseAfter] at h
  cases hp : parse n with
  | error x => rw [hp] at h; cases h
  | ok e =>
    rw [hp] at h
    cases hc : seen.contains e with
    | true =>
      simp only [bind, Except.bind, hc] at h
      cases h
    | false =>
      cases hr : parseAfter (e :: seen) rest with
      | error x =>
        simp only [bind, Except.bind, hc, hr] at h
        cases h
      | ok more =>
        simp only [bind, Except.bind, hc, hr] at h
        cases h
        exact ⟨e, more, rfl, rfl, by simpa using hc, hr⟩

theorem parseAfter_new (hn : parse n = .ok e) (he : e ∉ seen) :
    parseAfter seen (n :: rest) = (parseAfter (e :: seen) rest).map (e :: ·) := by
  have hc : seen.contains e = false := by simpa using he
  rw [parseAfter, hn]
  simp only [bind, Except.bind, hc]
  cases parseAfter (e :: seen) rest <;> rfl

/-- Why a name is refused after engines that were seen. -/
def Refused (seen : List Engine) (n : Text) (x : ParseError) : Prop :=
  parse n = .error x ∨ x = .repeated n ∧ ∃ e ∈ seen, parse n = .ok e

theorem parseAfter_refused (h : Refused seen n x) : parseAfter seen (n :: rest) = .error x := by
  rw [parseAfter]
  rcases h with h | ⟨rfl, e, he, h⟩
  · rw [h]
    rfl
  · have hc : seen.contains e = true := by simpa using he
    rw [h]
    simp only [bind, Except.bind, hc]
    rfl

theorem refused_or_new (seen : List Engine) (n : Text) :
    (∃ x, Refused seen n x) ∨ ∃ e, parse n = .ok e ∧ e ∉ seen := by
  cases hp : parse n with
  | error x => exact .inl ⟨x, .inl hp⟩
  | ok e =>
    by_cases he : e ∈ seen
    · exact .inl ⟨_, .inr ⟨rfl, e, he, hp⟩⟩
    · exact .inr ⟨e, rfl, he⟩

/-- A list is read as the engines that its names denote if none of these comes twice. -/
theorem parseAfter_ok_iff : parseAfter seen names = .ok es ↔
    List.Forall₂ Denotes names es ∧ es.Nodup ∧ ∀ e ∈ es, e ∉ seen := by
  induction names generalizing seen es with
  | nil =>
    constructor
    · rintro ⟨⟩
      exact ⟨.nil, .nil, List.forall_mem_nil _⟩
    · rintro ⟨⟨⟩, -, -⟩
      rfl
  | cons n rest ih =>
    constructor
    · intro h
      obtain ⟨e, more, rfl, hp, hfresh, hrest⟩ := parseAfter_cons h
      obtain ⟨hdenotes, hnodup, hseen⟩ := ih.mp hrest
      have hnew : e ∉ more := fun he => hseen e he (List.mem_cons_self ..)
      exact ⟨.cons (parse_eq_ok_iff.mp hp) hdenotes, List.nodup_cons.mpr ⟨hnew, hnodup⟩,
        List.forall_mem_cons.mpr ⟨hfresh, fun y hy hs => hseen y hy (List.mem_cons_of_mem _ hs)⟩⟩
    · rintro ⟨hdenotes, hnodup, hseen⟩
      obtain ⟨e, more, hn, hrest, rfl⟩ := List.forall₂_cons_left_iff.mp hdenotes
      obtain ⟨hnew, hnodup⟩ := List.nodup_cons.mp hnodup
      obtain ⟨hfresh, hseen⟩ := List.forall_mem_cons.mp hseen
      have hmore : parseAfter (e :: seen) rest = .ok more :=
        ih.mpr ⟨hrest, hnodup, fun y hy hs => (List.mem_cons.mp hs).elim
          (fun heq => hnew (heq ▸ hy)) (hseen y hy)⟩
      rw [parseAfter_new (parse_eq_ok_iff.mpr hn) hfresh, hmore]
      rfl

/-- What is seen before the rest of a list is what the first part of it was read as. -/
theorem parseAfter_append (h : parseAfter seen names = .ok es) (rest : List Text) :
    parseAfter seen (names ++ rest) = (parseAfter (es.reverse ++ seen) rest).map (es ++ ·) := by
  induction names generalizing seen es with
  | nil =>
    cases h
    show parseAfter seen rest = (parseAfter seen rest).map _
    cases parseAfter seen rest <;> rfl
  | cons n names ih =>
    obtain ⟨e, more, rfl, hp, hfresh, hmore⟩ := parseAfter_cons h
    rw [List.cons_append, parseAfter_new hp hfresh, ih hmore, List.reverse_cons, List.append_assoc,
      List.singleton_append]
    cases parseAfter (more.reverse ++ (e :: seen)) rest <;> rfl

theorem parseAfter_error_iff : parseAfter seen names = .error x ↔
    ∃ front n back es, names = front ++ n :: back ∧ parseAfter seen front = .ok es ∧
      Refused (es.reverse ++ seen) n x := by
  constructor
  · intro h
    induction names generalizing seen with
    | nil => cases h
    | cons n rest ih =>
      rcases refused_or_new seen n with ⟨y, hrefused⟩ | ⟨e, hp, hfresh⟩
      · rw [parseAfter_refused hrefused] at h
        cases h
        exact ⟨[], n, rest, [], rfl, rfl, hrefused⟩
      · rw [parseAfter_new hp hfresh] at h
        cases hrest : parseAfter (e :: seen) rest with
        | ok more => rw [hrest] at h; cases h
        | error y =>
          rw [hrest] at h
          cases h
          obtain ⟨front, m, back, es, rfl, hfront, hrefused⟩ := ih hrest
          refine ⟨n :: front, m, back, e :: es, rfl, ?_, ?_⟩
          · rw [parseAfter_new hp hfresh, hfront]
            rfl
          · rwa [List.reverse_cons, List.append_assoc]
  · rintro ⟨front, n, back, es, rfl, hfront, hrefused⟩
    rw [parseAfter_append hfront, parseAfter_refused hrefused]
    rfl

theorem mem_all_of_denotes (h : List.Forall₂ Denotes names es) : ∀ e ∈ es, e ∈ all := by
  induction h with
  | nil => exact List.forall_mem_nil _
  | cons hn _ ih => exact List.forall_mem_cons.mpr ⟨hn.1, ih⟩

theorem parseList_ok_iff :
    parseList names = .ok es ↔ List.Forall₂ Denotes names es ∧ es.Nodup := by
  unfold parseList
  rw [parseAfter_ok_iff]
  exact and_congr_right fun _ => and_iff_left fun _ _ => List.not_mem_nil

theorem parseList_ok (h : parseList names = .ok es) : es.Nodup ∧ ∀ e ∈ es, e ∈ all := by
  obtain ⟨hdenotes, hnodup⟩ := parseList_ok_iff.mp h
  exact ⟨hnodup, mem_all_of_denotes hdenotes⟩

theorem length_le_of_parseList (h : parseList names = .ok es) : es.length ≤ 5 := by
  obtain ⟨hnodup, hall⟩ := parseList_ok h
  exact (List.subperm_of_subset hnodup hall).length_le

/-- A list of engines is read back from their names. -/
theorem parseList_names (hnodup : es.Nodup) (hall : ∀ e ∈ es, e ∈ all) :
    parseList (es.map name) = .ok es := by
  refine parseList_ok_iff.mpr ⟨?_, hnodup⟩
  rw [List.forall₂_map_left_iff, List.forall₂_same]
  exact fun e he => denotes_name (hall e he)

/-- A list of engines is read back from its column in the store. -/
theorem splitEngines_joinEngines (h : parseList names = .ok es) :
    Store.splitEngines (Store.joinEngines es) = .ok es := by
  obtain ⟨hnodup, hall⟩ := parseList_ok h
  cases es with
  | nil => rfl
  | cons e rest =>
    have hsplit : Text.splitOn (Text.byte ',') (Store.joinEngines (e :: rest)) =
        (e :: rest).map name := by
      refine Text.splitOn_join (by simp) fun t ht => ?_
      obtain ⟨x, hx, rfl⟩ := List.mem_map.mp ht
      exact comma_not_mem_name (hall x hx)
    have hne : (Store.joinEngines (e :: rest)).isEmpty = false := by
      have hname := name_ne_nil (hall e (List.mem_cons_self ..))
      rw [List.isEmpty_eq_false_iff]
      cases rest with
      | nil => exact hname
      | cons u rest => simp [Store.joinEngines, Text.join, hname]
    unfold Store.splitEngines
    rw [hne, hsplit]
    exact parseList_names hnodup hall

/-! ### Lists that are refused -/

/-- Every name denotes an engine, and no two of them the same one. -/
structure Apart (names : List Text) : Prop where
  known : ∀ n ∈ names, ∃ e, Denotes n e
  distinct : names.Pairwise fun a b => ∀ e, Denotes a e → ¬ Denotes b e

theorem exists_denoted (h : List.Forall₂ Denotes names es) (hn : n ∈ names) :
    ∃ e ∈ es, Denotes n e := by
  induction h with
  | nil => cases hn
  | @cons m e _ es hm _ ih =>
    rcases List.mem_cons.mp hn with rfl | hn
    · exact ⟨e, List.mem_cons_self .., hm⟩
    · obtain ⟨e', he', hdenotes⟩ := ih hn
      exact ⟨e', List.mem_cons_of_mem _ he', hdenotes⟩

theorem exists_denoting (h : List.Forall₂ Denotes names es) (he : e ∈ es) :
    ∃ n ∈ names, Denotes n e := by
  induction h with
  | nil => cases he
  | @cons m e' names _ hm _ ih =>
    rcases List.mem_cons.mp he with rfl | he
    · exact ⟨m, List.mem_cons_self .., hm⟩
    · obtain ⟨n, hn, hdenotes⟩ := ih he
      exact ⟨n, List.mem_cons_of_mem _ hn, hdenotes⟩

theorem Apart.of_denotes (h : List.Forall₂ Denotes names es) (hnodup : es.Nodup) : Apart names := by
  refine ⟨fun n hn => (exists_denoted h hn).imp fun _ => And.right, ?_⟩
  induction h with
  | nil => exact .nil
  | @cons a e rest es ha hrest ih =>
    obtain ⟨hnew, hnodup⟩ := List.nodup_cons.mp hnodup
    refine .cons (fun b hb e' ha' hb' => ?_) (ih hnodup)
    obtain ⟨e'', he'', hb''⟩ := exists_denoted hrest hb
    rw [ha.unique ha', hb'.unique hb''] at hnew
    exact hnew he''

theorem Apart.exists_denotes (h : Apart names) : ∃ es, List.Forall₂ Denotes names es ∧ es.Nodup := by
  induction names with
  | nil => exact ⟨[], .nil, .nil⟩
  | cons n rest ih =>
    obtain ⟨hknown, hrest⟩ := List.forall_mem_cons.mp h.known
    obtain ⟨hfirst, hdistinct⟩ := List.pairwise_cons.mp h.distinct
    obtain ⟨e, he⟩ := hknown
    obtain ⟨es, hes, hnodup⟩ := ih ⟨hrest, hdistinct⟩
    refine ⟨e :: es, .cons he hes, List.nodup_cons.mpr ⟨fun hmem => ?_, hnodup⟩⟩
    obtain ⟨m, hm, hdenotes⟩ := exists_denoting hes hmem
    exact hfirst m hm e he hdenotes

theorem exists_parseList_iff : (∃ es, parseList names = .ok es) ↔ Apart names := by
  constructor
  · rintro ⟨es, h⟩
    obtain ⟨hdenotes, hnodup⟩ := parseList_ok_iff.mp h
    exact .of_denotes hdenotes hnodup
  · intro h
    exact h.exists_denotes.imp fun _ => parseList_ok_iff.mpr

/-- What is wrong with a name that comes after others. -/
inductive Offends (before : List Text) (n : Text) : ParseError → Prop
  | unknown (h : ∀ e, ¬ Denotes n e) : Offends before n (.unknown n)
  | repeated {m : Text} {e : Engine} (hm : m ∈ before) (h : Denotes m e) (hn : Denotes n e) :
    Offends before n (.repeated n)

theorem refused_iff_offends (h : List.Forall₂ Denotes names es) :
    Refused (es.reverse ++ []) n x ↔ Offends names n x := by
  unfold Refused
  rw [List.append_nil]
  constructor
  · rintro (herror | ⟨rfl, e, he, hn⟩)
    · obtain ⟨rfl, hnone⟩ := parse_eq_error_iff.mp herror
      exact .unknown hnone
    · obtain ⟨m, hm, hdenotes⟩ := exists_denoting h (List.mem_reverse.mp he)
      exact .repeated hm hdenotes (parse_eq_ok_iff.mp hn)
  · rintro (hnone | ⟨hm, hdenotes, hn⟩)
    · exact .inl (parse_eq_error_iff.mpr ⟨rfl, hnone⟩)
    · obtain ⟨e, he, hdenotes'⟩ := exists_denoted h hm
      rw [hdenotes.unique hdenotes'] at hn
      exact .inr ⟨rfl, e, List.mem_reverse.mpr he, parse_eq_ok_iff.mpr hn⟩

/-- A list is refused for the first name that is at fault. -/
theorem parseList_error_iff : parseList names = .error x ↔
    ∃ front n back, names = front ++ n :: back ∧ Apart front ∧ Offends front n x := by
  unfold parseList
  rw [parseAfter_error_iff]
  constructor
  · rintro ⟨front, n, back, es, hsplit, hfront, hrefused⟩
    obtain ⟨hdenotes, hnodup⟩ := parseList_ok_iff.mp hfront
    exact ⟨front, n, back, hsplit, .of_denotes hdenotes hnodup,
      (refused_iff_offends hdenotes).mp hrefused⟩
  · rintro ⟨front, n, back, hsplit, hapart, hoffends⟩
    obtain ⟨es, hdenotes, hnodup⟩ := hapart.exists_denotes
    exact ⟨front, n, back, es, hsplit, parseList_ok_iff.mpr ⟨hdenotes, hnodup⟩,
      (refused_iff_offends hdenotes).mpr hoffends⟩

/-- **How a list of names is read.** It is accepted if every name denotes an engine and no two names
the same one. Then there is one engine for each name, in their order, and the list is read again from
the names of its engines, from its column in the store, and engine by engine from the text form. It is
refused for the first name at fault. A text form that is refused leaves a variable as it was. -/
theorem parseList_decides (names : List Text) :
    (∀ t e, parse t = .ok e ↔ Denotes t e) ∧
    ((∃ es, parseList names = .ok es) ↔ Apart names) ∧
    (∀ es, parseList names = .ok es → List.Forall₂ Denotes names es ∧ es.Nodup ∧ es.length ≤ 5 ∧
      (∀ e ∈ es, e.runnable = true) ∧ parseList (es.map name) = .ok es ∧
      Store.splitEngines (Store.joinEngines es) = .ok es ∧
      ∀ e ∈ es, ∀ held, (load e.name).run held = .ok () e) ∧
    (∀ x, parseList names = .error x ↔
      ∃ front n back, names = front ++ n :: back ∧ Apart front ∧ Offends front n x) ∧
    ∀ t held x held', (load t).run held = .error x held' → held' = held ∧ parse t = .error x := by
  refine ⟨fun t e => parse_eq_ok_iff, exists_parseList_iff, fun es h => ?_,
    fun x => parseList_error_iff, fun t held x held' h => ?_⟩
  · obtain ⟨hnodup, hall⟩ := parseList_ok h
    refine ⟨(parseList_ok_iff.mp h).1, hnodup, length_le_of_parseList h,
      fun e he => List.contains_iff_mem.mpr (hall e he), parseList_names hnodup hall,
      splitEngines_joinEngines h, fun e he held => ?_⟩
    rw [run_load, ofText_name (.inr (hall e he))]
  · rw [run_load] at h
    cases hread : ofText t with
    | ok e =>
      rw [hread] at h
      cases h
    | error y =>
      rw [hread] at h
      cases h
      refine ⟨rfl, ?_⟩
      unfold ofText at hread
      split at hread
      · cases hread
      · exact hread

theorem parseList_decides_spellings :
    parseList [" PDR ", "Sim"] = .ok [pdr, sim] ∧
      Store.splitEngines (Store.joinEngines [pdr, sim]) = .ok [pdr, sim] ∧
      parseList ["pdr", "bmc", "\tPDR", "nope"] = .error (.repeated "\tPDR") := by
  have hread : parseList [" PDR ", "Sim"] = .ok [pdr, sim] := by decide +kernel
  obtain ⟨-, -, haccepted, -⟩ := parseList_decides [" PDR ", "Sim"]
  obtain ⟨hdenotes, hfront, -⟩ := parseList_decides ["pdr", "bmc"]
  obtain ⟨-, -, -, hrefused, -⟩ := parseList_decides ["pdr", "bmc", "\tPDR", "nope"]
  refine ⟨hread, (haccepted _ hread).2.2.2.2.2.1, (hrefused _).mpr ?_⟩
  refine ⟨["pdr", "bmc"], "\tPDR", ["nope"], rfl, hfront.mp ⟨[pdr, bmc], by decide +kernel⟩, ?_⟩
  exact .repeated (List.mem_cons_self ..) ((hdenotes _ pdr).mp (by decide +kernel))
    ((hdenotes _ pdr).mp (by decide +kernel))

end Regatta.Engine
