import Regatta.Proofs.Text.Split
import Regatta.Proofs.Text.Trim
import Regatta.Stage

/-! Stages, and the flags that name them.

A stage comes from a flag, where it is text, or from a manifest or a request, where its name and its
commands stand apart. Only the latter are asked whether they are valid. A flag that is read gives a
valid stage (`plain_of_parse`), and every valid stage can be written as a flag, as long as its name
can be told from what follows (`Plain.parse`). -/
namespace Regatta.Stage

variable {st : Stage} {t : Text}

theorem validate_eq_ok : st.validate = .ok () ↔
    st.name ≠ [] ∧ (∀ b ∈ st.name, refused b = false) ∧ st.commands.trim ≠ [] := by
  unfold validate checkName
  cases hempty : st.name.isEmpty with
  | true => simp_all [bind, Except.bind]
  | false =>
    cases hany : st.name.any refused with
    | true =>
      obtain ⟨b, hb, hrefused⟩ := List.any_eq_true.mp hany
      exact iff_of_false (fun h => by cases h) fun h => by simp [h.2.1 b hb] at hrefused
    | false =>
      cases hblank : Text.trim st.commands <;>
        simp_all [bind, Except.bind, pure, Except.pure, throw, throwThe, MonadExceptOf.throw]

theorem not_mem_name (h : st.validate = .ok ()) {x : UInt8} (hx : refused x = true) :
    x ∉ st.name := by
  intro hmem
  rw [(validate_eq_ok.mp h).2.1 x hmem] at hx
  cases hx

/-- A stage without white space around its parts, whose name has no `=` in it. -/
structure Plain (st : Stage) : Prop where
  name : st.name.trim = st.name
  commands : st.commands.trim = st.commands
  undivided : Text.byte '=' ∉ st.name

theorem parse_flag {n : Text} (h : Text.byte '=' ∉ n) (c : Text) :
    parse (n ++ Text.byte '=' :: c) = .ok st ↔
      st = ⟨n.trim, c.trim⟩ ∧ st.validate = .ok () := by
  have hcommands : c.trim.trim = c.trim := Text.trim_trim c
  unfold parse
  rw [Text.cut_eq_some.mpr ⟨rfl, h⟩]
  dsimp only
  constructor
  · intro hparse
    split at hparse
    · cases hparse
    · rename_i hsome
      rw [Bool.or_eq_true, not_or] at hsome
      cases hname : checkName n.trim with
      | error f => rw [hname] at hparse; cases hparse
      | ok _ =>
        rw [hname] at hparse
        cases hparse
        refine ⟨rfl, ?_⟩
        unfold validate
        rw [hname, hcommands]
        exact if_neg hsome.2
  · rintro ⟨rfl, hvalid⟩
    obtain ⟨hname, -, hsome⟩ := validate_eq_ok.mp hvalid
    rw [if_neg (by simpa [hcommands] using ⟨hname, hcommands ▸ hsome⟩)]
    unfold validate at hvalid
    cases hcheck : checkName n.trim <;> rw [hcheck] at hvalid
    · cases hvalid
    · rfl

theorem Plain.parse (h : st.Plain) :
    parse (st.name ++ Text.byte '=' :: st.commands) = .ok st ↔ st.validate = .ok () := by
  rw [parse_flag h.undivided, h.name, h.commands]
  exact and_iff_right rfl

theorem plain_of_parse (h : parse t = .ok st) : st.Plain ∧ st.validate = .ok () := by
  cases hcut : Text.cut (Text.byte '=') t with
  | none =>
    unfold parse at h
    rw [hcut] at h
    cases h
  | some x =>
    obtain ⟨rfl, hn⟩ := Text.cut_eq_some.mp hcut
    obtain ⟨rfl, hvalid⟩ := (parse_flag hn x.2).mp h
    exact ⟨⟨Text.trim_trim _, Text.trim_trim _, fun hmem => hn (Text.mem_of_mem_trim hmem)⟩, hvalid⟩

/-- **A flag can say exactly the stages that are valid and plain**, and says them as they are. -/
theorem parse_iff_valid (t : Text) (st : Stage) :
    (parse t = .ok st → st.validate = .ok () ∧ st.Plain ∧ st.name ≠ [] ∧ st.commands ≠ [] ∧
      parse (st.name ++ Text.byte '=' :: st.commands) = .ok st) ∧
    (st.validate = .ok () → st.Plain →
      parse (st.name ++ Text.byte '=' :: st.commands) = .ok st) ∧
    ((∃ t, parse t = .ok st) ↔ st.validate = .ok () ∧ st.Plain) := by
  refine ⟨fun h => ?_, fun hvalid hplain => hplain.parse.mpr hvalid, fun ⟨t, h⟩ => ?_, fun h => ?_⟩
  · obtain ⟨hplain, hvalid⟩ := plain_of_parse h
    obtain ⟨hname, -, hcommands⟩ := validate_eq_ok.mp hvalid
    exact ⟨hvalid, hplain, hname, hplain.commands ▸ hcommands, hplain.parse.mpr hvalid⟩
  · exact (plain_of_parse h).symm
  · exact ⟨_, h.2.parse.mpr h.1⟩

theorem parse_iff_valid_spaced :
    parse " fix\t= dc2; a=b\u2003" = .ok ⟨"fix", "dc2; a=b"⟩ ∧
      parse "fix=dc2; a=b" = .ok ⟨"fix", "dc2; a=b"⟩ := by
  have hread : parse " fix\t= dc2; a=b\u2003" = .ok ⟨"fix", "dc2; a=b"⟩ := rfl
  exact ⟨hread, ((parse_iff_valid _ _).1 hread).2.2.2.2⟩

end Regatta.Stage
