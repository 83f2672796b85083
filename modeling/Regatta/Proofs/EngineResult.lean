import Regatta.EngineResult
import Regatta.Proofs.Engine
import Regatta.Proofs.Json.Writing

/-! Results of engines, as they are written in JSON and read.

What can be told in JSON is read as it was written, and a text tells nothing else: `setField` keeps a
result `Expressible`, whatever the key is and whatever was said before. -/
namespace Regatta.EngineResult

/-- A result that can be told in JSON: a valid verdict, an engine that can be run or none, and a time
of 64 bits or none. -/
structure Expressible (r : EngineResult) : Prop where
  isValid_verdict : r.verdict.text.isValid = true
  known : r.engine = .none ∨ r.engine ∈ Engine.all
  fits : ∀ d ∈ r.elapsed, Number.fitsWord d = true

variable {r r' : EngineResult}

/-! ### What is written is read -/

theorem setField_verdict (r : EngineResult) (t : Text) :
    r.setField "verdict" (.string t) = some { r with verdict := ⟨t⟩ } := by
  have hkey : Json.foldKey "verdict" = "verdict" := by decide +kernel
  unfold setField
  rw [hkey]
  rfl

theorem setField_engine (r : EngineResult) {e : Engine} (h : e = .none ∨ e ∈ Engine.all) :
    r.setField "engine" (.string e.name) = some { r with engine := e } := by
  have hkey : Json.foldKey "engine" = "engine" := by decide +kernel
  have hother : ("engine" : Text) ≠ "verdict" := by decide +kernel
  unfold setField
  dsimp only
  rw [hkey, if_neg (by simpa using hother), if_pos (beq_self_eq_true _), Engine.run_load,
    Engine.ofText_name h]

theorem setField_elapsed (r : EngineResult) {d : Int} (h : Number.fitsWord d = true) :
    r.setField "elapsed_ns" (Json.ofInt d) = some { r with elapsed := some d } := by
  have hkey : Json.foldKey "elapsed_ns" = "elapsed_ns" := by decide +kernel
  have hverdict : ("elapsed_ns" : Text) ≠ "verdict" := by decide +kernel
  have hengine : ("elapsed_ns" : Text) ≠ "engine" := by decide +kernel
  unfold setField Json.ofInt
  dsimp only
  rw [hkey, if_neg (by simpa using hverdict), if_neg (by simpa using hengine),
    if_pos (beq_self_eq_true _), Json.int64?_ofInt h]
  rfl

theorem ofJson_toJson (h : Expressible r) : ofJson r.toJson = some r := by
  obtain ⟨verdict, engine, elapsed⟩ := r
  obtain ⟨-, hengine, helapsed⟩ := h
  have hfront (ms : List (Text × Json)) :
      ofJson (.object (Json.field "verdict" verdict.text :: Json.field "engine" engine.name :: ms)) =
        ms.foldlM (fun r m => r.setField m.1 m.2) ⟨verdict, engine, none⟩ := by
    show (setField empty "verdict" (.string verdict.text)).bind (fun r =>
      (r.setField "engine" (.string engine.name)).bind fun r => ms.foldlM _ r) = _
    rw [setField_verdict, Option.bind_some, setField_engine _ hengine]
    rfl
  cases elapsed with
  | none => exact hfront []
  | some d =>
    refine (hfront [("elapsed_ns", Json.ofInt d)]).trans ?_
    show (setField _ "elapsed_ns" (Json.ofInt d)).bind _ = _
    rw [setField_elapsed _ (helapsed d rfl)]
    rfl

theorem isValid_name {e : Engine} (h : e = .none ∨ e ∈ Engine.all) : e.name.isValid = true := by
  rcases h with rfl | h
  · rfl
  · revert e
    decide +kernel

theorem plain_members (h : Expressible r) :
    ∀ m ∈ Json.field "verdict" r.verdict.text :: Json.field "engine" r.engine.name ::
      Json.optional "elapsed_ns" Json.ofInt r.elapsed, m.1.isValid = true ∧ Json.Plain m.2 := by
  have hverdict : ("verdict" : Text).isValid = true := by decide +kernel
  have hengine : ("engine" : Text).isValid = true := by decide +kernel
  have helapsed : ("elapsed_ns" : Text).isValid = true := by decide +kernel
  refine List.forall_mem_cons.mpr ⟨⟨hverdict, .string h.isValid_verdict⟩,
    List.forall_mem_cons.mpr ⟨⟨hengine, .string (isValid_name h.known)⟩, fun m hm => ?_⟩⟩
  obtain ⟨d, -, rfl⟩ := List.mem_map.mp hm
  exact ⟨helapsed, .number (Json.isNumber_ofInt d)⟩

theorem decode_encode_of_expressible (h : Expressible r) : decode (encode r) = some r := by
  have hparse : Json.parse (Json.render r.toJson) = some r.toJson :=
    Json.parse_render (plain_members h)
  unfold decode encode
  rw [hparse]
  exact ofJson_toJson h

/-! ### What is read can be written -/

theorem expressible_empty : Expressible empty := ⟨rfl, .inl rfl, fun _ h => by cases h⟩

/-- Whatever a key sets, the result stays one that can be told. -/
theorem expressible_setField (hr : Expressible r) {k : Text} {v : Json} (hv : v.IsText)
    (h : r.setField k v = some r') : Expressible r' := by
  unfold setField at h
  dsimp only at h
  split at h
  · split at h <;> cases h
    · exact { hr with isValid_verdict := hv _ rfl }
    · exact hr
  split at h
  · split at h
    · rename_i t
      rw [Engine.run_load] at h
      cases hload : Engine.ofText t with
      | error x => rw [hload] at h; cases h
      | ok e =>
        rw [hload] at h
        cases h
        exact { hr with known := Engine.mem_of_ofText hload }
    · cases h
      exact hr
    · cases h
  split at h
  · split at h
    · obtain ⟨d, hd, rfl⟩ := Option.map_eq_some_iff.mp h
      refine { hr with fits := ?_ }
      rintro _ ⟨⟩
      exact Json.fitsWord_of_int64? hd
    · cases h
      exact { hr with fits := fun _ hd => (by cases hd) }
    · cases h
  · cases h
    exact hr

theorem expressible_foldlM {ms : List (Text × Json)} (hr : Expressible r) (hms : ∀ m ∈ ms, m.2.IsText)
    (h : ms.foldlM (fun r m => r.setField m.1 m.2) r = some r') : Expressible r' := by
  induction ms generalizing r with
  | nil =>
    cases h
    exact hr
  | cons m ms ih =>
    obtain ⟨hm, hms⟩ := List.forall_mem_cons.mp hms
    rw [List.foldlM_cons] at h
    obtain ⟨next, hnext, h⟩ := Option.bind_eq_some_iff.mp h
    exact ih (expressible_setField hr hm hnext) hms h

theorem expressible_of_decode {t : Text} (h : decode t = some r) : Expressible r := by
  obtain ⟨j, hparse, hj⟩ := Option.bind_eq_some_iff.mp h
  obtain ⟨⟨j', rest⟩, hfirst, hend⟩ := Option.bind_eq_some_iff.mp hparse
  obtain ⟨-, hj'⟩ := Option.ite_none_right_eq_some.mp hend
  cases hj'
  unfold ofJson at hj
  split at hj
  · cases hj
    exact expressible_empty
  · exact expressible_foldlM expressible_empty
      (Json.forall_of_parseFirst Json.isText_value hfirst) hj
  · cases hj

/-- A time of zero is written out. -/
theorem encode_zero_ne (r : EngineResult) :
    encode { r with elapsed := some 0 } ≠ encode { r with elapsed := none } := by
  have hcomma : ("," : Text).length = 1 := rfl
  have hlonger : (encode { r with elapsed := none }).length <
      (encode { r with elapsed := some 0 }).length := by
    show List.length (_ ++ Json.renderMembers .markup [_, _] ++ _) <
      List.length (_ ++ Json.renderMembers .markup [_, _, _] ++ _)
    simp only [Json.field, Json.renderMembers, List.length_append]
    omega
  exact fun h => absurd (congrArg List.length h) (Nat.ne_of_gt hlonger)

/-- **Results survive their JSON form.** Exactly the results that can be told are read as they were
written, and what any text is read as can be told. A time of zero is not a missing one. -/
theorem survives_json (r : EngineResult) :
    (decode (encode r) = some r ↔ Expressible r) ∧
    (∀ t, decode t = some r → decode (encode r) = some r) ∧
    encode { r with elapsed := some 0 } ≠ encode { r with elapsed := none } :=
  ⟨⟨expressible_of_decode, decode_encode_of_expressible⟩,
    fun _ h => decode_encode_of_expressible (expressible_of_decode h), encode_zero_ne r⟩

/-- A text with its keys in odd spellings and out of order, some of them said more than once. -/
def oddlyTold : Text :=
  "\x7b\"elap\u017fed_NS\": 5, \"x\": [1, \x7b\x7d], \"ENGINE\": \" Bmc\", \"engine\": null, " ++
    "\"Verdict\": \"a\\u003cb\", \"elapsed_ns\": null, \"elapsed_ns\": -9223372036854775808\x7d"

theorem survives_json_oddly_told :
    decode oddlyTold = some ⟨⟨"a<b"⟩, .bmc, some (-9223372036854775808)⟩ ∧
      decode (encode ⟨⟨"a<b"⟩, .bmc, some (-9223372036854775808)⟩) =
        some ⟨⟨"a<b"⟩, .bmc, some (-9223372036854775808)⟩ := by
  have htold : decode oddlyTold = some ⟨⟨"a<b"⟩, .bmc, some (-9223372036854775808)⟩ := by
    decide +kernel
  exact ⟨htold, (survives_json _).2.1 oddlyTold htold⟩

end Regatta.EngineResult
