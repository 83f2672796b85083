import Regatta.Circuit.Aiger
import Regatta.Proofs.Circuit.Summary

/-! Readers that take a known text off the front of a file.

`Takes r t a` says that the reader `r` takes exactly the text `t`, whatever comes behind it, and
gives `a`. Readers that run one after the other take their texts one after the other
(`Takes.bind`). A number is the one thing whose end is seen only by what follows it, so it is taken
together with the reader behind it (`Takes.number`). -/
namespace Regatta.Aiger

theorem run_number {d : UInt8} {ds : Text} (hd : Text.isDigit d = true)
    (hrest : (d :: ds).dropWhile Text.isDigit ≠ []) : number.run (d :: ds) =
      .ok (Text.digitsValue ((d :: ds).takeWhile Text.isDigit) % Number.wordCount,
        (d :: ds).dropWhile Text.isDigit) := by
  show StateT.run (if (!Text.isDigit d) = true then _ else _) (d :: ds) = _
  rw [if_neg (by simp [hd]), if_neg (by simpa using hrest)]
  rfl

theorem run_number_ofNat {n : Nat} (hn : n < Number.wordCount) {b : UInt8}
    (hb : Text.isDigit b = false) (t : Text) :
    number.run (Text.ofNat n ++ b :: t) = .ok (n, b :: t) := by
  have hdigits : ∀ d ∈ Text.ofNat n, Text.isDigit d = true := fun _ => Text.isDigit_of_mem_ofNat
  have hends : Stats.Summary.StartsWithout Text.isDigit (b :: t) := by
    intro d hd
    cases hd
    exact hb
  obtain ⟨htake, hdrop⟩ := Stats.Summary.span_append hdigits hends
  obtain ⟨d, ds, hd⟩ : ∃ d ds, Text.ofNat n = d :: ds :=
    List.exists_cons_of_ne_nil (mt List.map_eq_nil_iff.mp Nat.toDigits_ne_nil)
  have hfirst := hdigits d (by rw [hd]; exact List.mem_cons_self ..)
  have hvalue := Text.digitsValue_ofNat n
  rw [hd] at htake hdrop hvalue ⊢
  rw [List.cons_append] at htake hdrop ⊢
  rw [run_number hfirst (by rw [hdrop]; exact List.cons_ne_nil _ _), htake, hdrop, hvalue,
    Nat.mod_eq_of_lt hn]

/-- The reader takes this text off the front of whatever follows, and gives `a`. -/
def Takes {α : Type} (r : Reader α) (t : Text) (a : α) : Prop :=
  ∀ rest, r.run (t ++ rest) = .ok (a, rest)

namespace Takes

variable {α β : Type} {r : Reader α} {f : α → Reader β} {s t : Text} {a : α} {c : β}

theorem pure (a : α) : Takes (Pure.pure a) [] a := fun _ => rfl

theorem bind (h : Takes r s a) (hf : Takes (f a) t c) : Takes (r >>= f) (s ++ t) c := by
  intro rest
  rw [StateT.run_bind, List.append_assoc, h]
  exact hf rest

theorem bind_pure (h : Takes r s a) (hf : Takes (f a) [] c) : Takes (r >>= f) s c := by
  have := bind h hf
  rwa [List.append_nil] at this

theorem nextByte (b : UInt8) : Takes nextByte [b] b := fun _ => rfl

theorem expect (b : UInt8) : Takes (expect b) [b] () := by
  refine (nextByte b).bind_pure ?_
  rw [bne_self_eq_false]
  exact pure ()

theorem newline : Takes newline [10] () := expect 10

theorem number {n : Nat} (hn : n < Number.wordCount) {b : UInt8} (hb : Text.isDigit b = false)
    {g : Nat → Reader β} (h : Takes (g n) (b :: t) c) :
    Takes (Aiger.number >>= g) (Text.ofNat n ++ b :: t) c := by
  intro rest
  rw [StateT.run_bind, List.append_assoc, List.cons_append, run_number_ofNat hn hb]
  exact h rest

theorem literal {maxVar l : Nat} (hmax : 2 * maxVar + 1 < Number.wordCount)
    (hl : l ≤ 2 * maxVar + 1) {b : UInt8} (hb : Text.isDigit b = false) {g : Nat → Reader β}
    (h : Takes (g l) (b :: t) c) :
    Takes (Aiger.literal maxVar >>= g) (Text.ofNat l ++ b :: t) c := by
  rw [Aiger.literal, bind_assoc]
  refine number (Nat.lt_of_le_of_lt hl hmax) hb ?_
  rw [if_neg (Nat.not_lt.mpr hl)]
  exact h

theorem literalLine {maxVar l : Nat} (hmax : 2 * maxVar + 1 < Number.wordCount)
    (hl : l ≤ 2 * maxVar + 1) : Takes (literalLine maxVar) (Text.ofNat l ++ [10]) l :=
  literal hmax hl (by decide) (newline.bind_pure (pure l))

theorem times {as : List α} {text : α → Text} (h : ∀ a ∈ as, Takes r (text a) a) :
    Takes (times as.length r) (as.flatMap text) as := by
  induction as with
  | nil => exact pure []
  | cons a as ih =>
    rw [List.forall_mem_cons] at h
    rw [List.flatMap_cons]
    exact h.1.bind ((ih h.2).bind_pure (pure (a :: as)))

theorem headerNumbers {ns : List Nat} (hns : ∀ n ∈ ns, n < Number.wordCount) {room : Nat}
    (hroom : ns.length ≤ room) :
    Takes (headerNumbers room) (ns.flatMap (fun n => 32 :: Text.ofNat n) ++ [10]) ns := by
  induction ns generalizing room with
  | nil =>
    cases room with
    | zero => exact (nextByte 10).bind_pure (pure [])
    | succ room => exact (nextByte 10).bind_pure (pure [])
  | cons n ns ih =>
    obtain ⟨room, rfl⟩ := Nat.exists_eq_add_of_le' (Nat.one_le_of_lt hroom)
    rw [List.forall_mem_cons] at hns
    have hrest := ih hns.2 (Nat.le_of_succ_le_succ hroom)
    -- the number ends at the blank before the next one or at the end of the line
    obtain ⟨b, t, ht, hb⟩ : ∃ b t, ns.flatMap (fun n => 32 :: Text.ofNat n) ++ [10] = b :: t ∧
        Text.isDigit b = false := by
      cases ns with
      | nil => exact ⟨10, [], rfl, by decide⟩
      | cons m ms => exact ⟨32, _, rfl, by decide⟩
    rw [ht] at hrest
    rw [List.flatMap_cons, List.append_assoc, ht]
    exact (nextByte 32).bind (number hns.1 hb (hrest.bind_pure (pure (n :: ns))))

theorem header {m i l o a : Nat} (h : ∀ n ∈ [m, i, l, o, a], n < Number.wordCount) :
    Takes header ([m, i, l, o, a].flatMap (fun n => 32 :: Text.ofNat n) ++ [10])
      ⟨m, i, l, o, a, 0, 0, 0, 0⟩ :=
  (headerNumbers h (by simp)).bind_pure (pure _)

end Takes

/-! ### Differences -/

/-- A difference as the binary form has it: seven bits a byte, the lowest first, and the eighth bit
set on all bytes but the last. -/
def septets (n : Nat) : Text :=
  if n < 128 then [n.toUInt8] else (n % 128 + 128).toUInt8 :: septets (n / 128)
termination_by n

theorem low_toUInt8 {n : Nat} (h : n < 256) : (n.toUInt8 &&& 0x7F).toNat = n % 128 := by
  have : (0x7F : UInt8).toNat = 2 ^ 7 - 1 := rfl
  rw [UInt8.toNat_and, this, Nat.and_two_pow_sub_one_eq_mod]
  simp [Nat.mod_eq_of_lt h]

theorem toUInt8_lt_iff {n : Nat} (h : n < 256) : n.toUInt8 < 0x80 ↔ n < 128 := by
  rw [UInt8.lt_iff_toNat_lt]
  simp [Nat.mod_eq_of_lt h]

theorem twoTo_add_seven (shift : Nat) : Number.twoTo (shift + 7) = 128 * Number.twoTo shift := by
  show 2 ^ (shift + 7) = 128 * 2 ^ shift
  rw [Nat.pow_add, Nat.mul_comm]

/-- Bits that fit into a word are kept at every shift. -/
theorem shifted_eq {k shift : Nat} (h : k * Number.twoTo shift < Number.wordCount) :
    (if 64 ≤ shift then 0 else k * Number.twoTo shift % Number.wordCount) =
      k * Number.twoTo shift := by
  split
  next hshift =>
    have hword : Number.wordCount ≤ Number.twoTo shift := Nat.pow_le_pow_right (by decide) hshift
    have hk : k = 0 := Nat.eq_zero_of_not_pos fun hk => by
      have := Nat.le_mul_of_pos_left (Number.twoTo shift) hk
      omega
    rw [hk, Nat.zero_mul]
  next => exact Nat.mod_eq_of_lt h

namespace Takes

theorem delta {n shift fuel : Nat} (hn : n * Number.twoTo shift < Number.wordCount)
    (hfuel : (septets n).length ≤ fuel) :
    Takes (delta fuel shift) (septets n) (n * Number.twoTo shift) := by
  fun_induction septets n generalizing shift fuel with
  | case1 n hsmall =>
    obtain ⟨fuel, rfl⟩ := Nat.exists_eq_add_of_le' hfuel
    refine (nextByte _).bind_pure ?_
    simp only [low_toUInt8 (show n < 256 by omega), Nat.mod_eq_of_lt hsmall, shifted_eq hn]
    rw [if_pos ((toUInt8_lt_iff (by omega)).mpr hsmall)]
    exact pure _
  | case2 n hlarge ih =>
    obtain ⟨fuel, rfl⟩ := Nat.exists_eq_add_of_le' (Nat.one_le_of_lt hfuel)
    have hsplit : n * Number.twoTo shift =
        n % 128 * Number.twoTo shift + n / 128 * Number.twoTo (shift + 7) := by
      rw [twoTo_add_seven, ← Nat.mul_assoc, ← Nat.add_mul, Nat.mul_comm (n / 128),
        Nat.mod_add_div]
    have hlow : n % 128 * Number.twoTo shift < Number.wordCount := by omega
    have hhigh : n / 128 * Number.twoTo (shift + 7) < Number.wordCount := by omega
    have hrest := ih hhigh (Nat.le_of_succ_le_succ hfuel)
    refine (nextByte _).bind (t := septets (n / 128)) ?_
    have hbyte : n % 128 + 128 < 256 := by omega
    simp only [low_toUInt8 hbyte, Nat.add_mod_right, Nat.mod_mod, shifted_eq hlow]
    rw [if_neg (mt (toUInt8_lt_iff hbyte).mp (by omega)), hsplit]
    exact hrest.bind_pure (pure _)

theorem readDelta {n : Nat} (hn : n < Number.wordCount) : Takes readDelta (septets n) n := by
  intro rest
  have hzero : n * Number.twoTo 0 = n := Nat.mul_one n
  have hlength : (septets n).length ≤ (septets n ++ rest).length + 1 := by
    rw [List.length_append]
    omega
  have h := Takes.delta (hzero.symm ▸ hn) hlength rest
  rwa [hzero] at h

end Takes

/-! ### The end of a file -/

/-- What a reader makes of a whole text. -/
def Gives {α : Type} (r : Reader α) (t : Text) (result : Except Fault α) : Prop :=
  (r.run t).map Prod.fst = result

section

variable {α β : Type} {r : Reader α} {f : α → Reader β} {s t : Text} {a : α}
  {result : Except Fault β}

theorem Takes.gives (h : Takes r s a) (hf : Gives (f a) t result) :
    Gives (r >>= f) (s ++ t) result := by
  rw [Gives, StateT.run_bind, h]
  exact hf

theorem Takes.gives_nil (h : Takes r [] a) (hf : Gives (f a) t result) :
    Gives (r >>= f) t result :=
  Takes.gives (s := []) h hf

theorem Gives.bind (h : Gives r t (.ok a)) (hf : ∀ rest, Gives (f a) rest result) :
    Gives (r >>= f) t result := by
  rw [Gives] at h
  rw [Gives, StateT.run_bind]
  cases hrun : r.run t with
  | error e =>
    rw [hrun] at h
    cases h
  | ok p =>
    rw [hrun] at h
    cases h
    exact hf p.2

theorem Gives.get {f : Text → Reader β} (h : Gives (f t) t result) : Gives (get >>= f) t result := h

theorem Gives.lift_ok {e : Except Fault α} (he : e = .ok a) (hf : Gives (f a) t result) :
    Gives (liftM e >>= f) t result := by
  rw [he]
  exact hf

theorem Gives.lift_error {e : Except Fault α} {x : Fault} (he : e = .error x) :
    Gives (liftM e >>= f) t (.error x) := by
  rw [he]
  rfl

theorem Gives.number {g : Nat → Reader β} {n : Nat} (hn : n < Number.wordCount) {b : UInt8}
    (hb : Text.isDigit b = false) (h : Gives (g n) (b :: t) result) :
    Gives (Aiger.number >>= g) (Text.ofNat n ++ b :: t) result := by
  rw [Gives, StateT.run_bind, run_number_ofNat hn hb]
  exact h

end

/-- A name ends with its line. -/
theorem Takes.symbolName {name : Text} (h : 10 ∉ name) : Takes symbolName (name ++ [10]) () := by
  intro rest
  have hname : ∀ b ∈ name, (b != 10) = true := by
    intro b hb
    rw [bne_iff_ne]
    rintro rfl
    exact h hb
  have hdrop : (name ++ [10] ++ rest).dropWhile (· != 10) = 10 :: rest := by
    rw [List.append_assoc, List.dropWhile_append_of_pos hname]
    rfl
  rw [Aiger.symbolName, StateT.run_bind, StateT.run_get, pure_bind]
  simp only [hdrop]
  rfl

end Regatta.Aiger
