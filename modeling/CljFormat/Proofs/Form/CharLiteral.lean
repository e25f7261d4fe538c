/-
CljFormat.Proofs.Form.CharLiteral — what character literals stand for.

`StandsFor body c` says without the decoder that the text behind a backslash stands for `c`: it is
`c` itself, the name of `c`, or the code of `c` in digits. A digit is told by the character it is
written as (`IsDigit`), and a number by its digits, each at its place (`Numeral`). The decoder gives
exactly these characters, because no name starts like a code and none has only one character
(`decode_eq_ok_iff`).

## Bytes

A text is laid out in bytes, and the decoder's steps can be taken on these: the first byte is cut
off in front of the digits, the bytes behind it are counted as digits, and their number is built up
in 32 bits. `decodeBytes?` takes these steps and has no answer where one of them is not possible, be
it that a cut falls inside a character or that a number outgrows its bits. It always has one, and it
is the decoder's (`decodeBytes?_eq`): `o`, `u` and every digit have one byte each, and four digits
fit.
-/
import CljFormat.Form.CharLiteral
import CljFormat.Proofs.Lists
import Mathlib.Data.Nat.Digits.Lemmas
import Mathlib.Data.String.Basic

namespace CljFormat

open String (utf8Len)

namespace CharLiteral

variable {base count v n : Nat} {c : Char} {digits body : List Char}

/-! ## 1. Numbers in digits -/

/-- `c` is the digit `v` in base `base`, a capital letter being as good as a small one. -/
def IsDigit (base : Nat) (c : Char) (v : Nat) : Prop :=
  v < base ∧ c.toLower = v.digitChar

/-- The digits write the number `n` in base `base`, the last of them being worth the least. -/
def Numeral (base : Nat) (digits : List Char) (n : Nat) : Prop :=
  ∃ values, List.Forall₂ (IsDigit base) digits values ∧ Nat.ofDigits base values.reverse = n

theorem toNat_toLower (c : Char) :
    c.toLower.toNat = if 65 ≤ c.toNat ∧ c.toNat ≤ 90 then c.toNat + 32 else c.toNat := by
  have hcapital : 'A'.val ≤ c.val ∧ c.val ≤ 'Z'.val ↔ 65 ≤ c.toNat ∧ c.toNat ≤ 90 := by
    rw [UInt32.le_iff_toNat_le, UInt32.le_iff_toNat_le]
    rfl
  by_cases h : 65 ≤ c.toNat ∧ c.toNat ≤ 90
  · have hfits : c.toNat + 32 < 2 ^ 32 := by omega
    have hlower : c.toLower = ⟨c.val + 32, _⟩ := dif_pos (hcapital.mpr h)
    rw [if_pos h, hlower]
    exact (UInt32.toNat_add _ _).trans (Nat.mod_eq_of_lt hfits)
  · have hlower : c.toLower = c := dif_neg (mt hcapital.mp h)
    rw [if_neg h, hlower]

theorem toNat_digitChar : ∀ v < 16, v.digitChar.toNat = if v < 10 then v + 48 else v + 87 := by
  decide

/-- A character has a value exactly if it is a digit. -/
theorem digitValue?_eq_some_iff (hbase : base ≤ 16) :
    digitValue? base c = some v ↔ IsDigit base c v := by
  have hcodes : '0'.toNat = 48 ∧ '9'.toNat = 57 ∧ 'a'.toNat = 97 ∧ 'f'.toNat = 102 ∧
      'A'.toNat = 65 ∧ 'F'.toNat = 70 := ⟨rfl, rfl, rfl, rfl, rfl, rfl⟩
  rw [digitValue?, Option.filter_eq_some_iff, decide_eq_true_eq, IsDigit, and_comm]
  refine and_congr_right fun hv => ?_
  rw [← Char.toNat_inj, toNat_toLower, toNat_digitChar v (by omega)]
  generalize c.toNat = k
  split_ifs <;> simp only [Option.some.injEq, false_iff] <;> omega

theorem number?_eq_some_iff (hbase : base ≤ 16) :
    number? base digits = some n ↔ Numeral base digits n := by
  have hfold : ∀ values : List Nat,
      values.foldl (fun n d => n * base + d) 0 = Nat.ofDigits base values.reverse := by
    intro values
    rw [Nat.ofDigits_eq_foldr, List.foldr_reverse]
    refine List.foldl_ext _ _ _ fun n d _ => ?_
    rw [Nat.cast_id, Nat.add_comm, Nat.mul_comm]
  simp only [number?, Numeral, Option.map_eq_some_iff, mapM_eq_some_iff,
    digitValue?_eq_some_iff hbase, hfold]

theorem lt_of_isDigit {values : List Nat} (h : List.Forall₂ (IsDigit base) digits values) :
    ∀ v ∈ values, v < base := by
  induction h with
  | nil => exact fun v hv => absurd hv List.not_mem_nil
  | cons hdigit _ ih => exact List.forall_mem_cons.mpr ⟨hdigit.1, ih⟩

theorem Numeral.lt (hbase : 1 < base) (h : Numeral base digits n) : n < base ^ digits.length := by
  obtain ⟨values, hvalues, rfl⟩ := h
  have hlt := Nat.ofDigits_lt_base_pow_length hbase fun v hv =>
    lt_of_isDigit hvalues v (List.mem_reverse.mp hv)
  rwa [List.length_reverse, ← hvalues.length_eq] at hlt

/-! ## 2. What a literal stands for -/

/-- The numbers that are codes of one half of a character, and of no character. -/
def IsSurrogate (n : Nat) : Prop :=
  0xd800 ≤ n ∧ n ≤ 0xdfff

/-- The text of a literal behind its backslash stands for a character: by being it, by its name, or
by its code in three octal or four hexadecimal digits. -/
inductive StandsFor : List Char → Char → Prop
  | itself (c : Char) : StandsFor [c] c
  | named {body : List Char} {c : Char} : (String.ofList body, c) ∈ named → StandsFor body c
  | octal {digits : List Char} {n : Nat} : digits.length = 3 → Numeral 8 digits n →
      StandsFor ('o' :: digits) (Char.ofNat n)
  | unicode {digits : List Char} {n : Nat} : digits.length = 4 → Numeral 16 digits n →
      ¬ IsSurrogate n → StandsFor ('u' :: digits) (Char.ofNat n)

/-- What is said of a text that stands for nothing. -/
def complaint : List Char → String
  | 'o' :: _ :: _ => "invalid octal literal"
  | 'u' :: _ :: _ => "invalid unicode literal"
  | _ => "invalid character literal"

theorem ofName?_eq_some_iff {name : String} : ofName? name = some c ↔ (name, c) ∈ named := by
  constructor
  · intro h
    obtain ⟨before, after, hnamed, -⟩ := List.lookup_eq_some_iff.mp h
    rw [hnamed]
    exact List.mem_append_right _ List.mem_cons_self
  · have hfound : ∀ entry ∈ named, ofName? entry.1 = some entry.2 := by decide
    exact hfound (name, c)

/-- A name has several characters, and starts otherwise than a code. -/
theorem head_of_named (h : (String.ofList body, c) ∈ named) :
    ∃ d e rest, body = d :: e :: rest ∧ d ≠ 'o' ∧ d ≠ 'u' := by
  have hall : ∀ entry ∈ named, ∃ d e rest, entry.1.toList = d :: e :: rest ∧ d ≠ 'o' ∧ d ≠ 'u' := by
    intro entry hentry
    simp only [named, List.mem_cons, List.not_mem_nil, or_false] at hentry
    rcases hentry with rfl | rfl | rfl | rfl | rfl | rfl <;>
      exact ⟨_, _, _, rfl, by decide, by decide⟩
  simpa using hall _ h

/-- The character whose code is `n`. -/
def ofCode? (n : Nat) : Option Char :=
  if h : n.isValidChar then some (Char.ofNatAux n h) else none

theorem ofCode?_eq_some_iff : ofCode? n = some c ↔ n.isValidChar ∧ Char.ofNat n = c := by
  by_cases h : n.isValidChar
  · have hcode : Char.ofNat n = Char.ofNatAux n h := dif_pos h
    have hsome : ofCode? n = some (Char.ofNatAux n h) := dif_pos h
    rw [hsome, hcode, Option.some.injEq]
    exact ⟨fun hc => ⟨h, hc⟩, And.right⟩
  · have hnone : ofCode? n = none := dif_neg h
    rw [hnone]
    exact iff_of_false (by simp) fun hc => h hc.1

theorem codePoint?_eq (base count : Nat) (digits : List Char) :
    codePoint? base count digits =
      if digits.length = count then (number? base digits).bind ofCode? else none := by
  by_cases hcount : digits.length = count
  · rw [codePoint?, if_pos hcount, guard, if_pos hcount]
    rfl
  · rw [codePoint?, if_neg hcount, guard, if_neg hcount]
    rfl

/-- The digits of a code write a number that is the code of a character. -/
theorem codePoint?_eq_some_iff (hbase : base ≤ 16) :
    codePoint? base count digits = some c ↔
      digits.length = count ∧ ∃ n, Numeral base digits n ∧ n.isValidChar ∧ Char.ofNat n = c := by
  rw [codePoint?_eq]
  split
  · next hcount =>
    simp only [Option.bind_eq_some_iff, number?_eq_some_iff hbase, ofCode?_eq_some_iff, hcount,
      true_and]
  · next hcount => simp [hcount]

/-- Three octal digits write a small number. -/
theorem isValidChar_of_octal (hlength : digits.length = 3) (h : Numeral 8 digits n) :
    n.isValidChar := by
  have hlt := h.lt (by decide)
  rw [hlength] at hlt
  exact .inl (by omega)

/-- Four hexadecimal digits write the code of a character unless it is that of a surrogate. -/
theorem isValidChar_iff_of_unicode (hlength : digits.length = 4) (h : Numeral 16 digits n) :
    n.isValidChar ↔ ¬ IsSurrogate n := by
  have hlt := h.lt (by decide)
  rw [hlength] at hlt
  unfold Nat.isValidChar IsSurrogate
  omega

/-- A text of several characters is a name or a code. -/
theorem standsFor_cons_cons {d e : Char} {rest : List Char} :
    StandsFor (d :: e :: rest) c ↔
      (String.ofList (d :: e :: rest), c) ∈ named ∨
      (d = 'o' ∧ codePoint? 8 3 (e :: rest) = some c) ∨
      (d = 'u' ∧ codePoint? 16 4 (e :: rest) = some c) := by
  rw [codePoint?_eq_some_iff (by decide), codePoint?_eq_some_iff (by decide)]
  constructor
  · intro h
    cases h with
    | named hname => exact .inl hname
    | octal hlength hn =>
      exact .inr (.inl ⟨rfl, hlength, _, hn, isValidChar_of_octal hlength hn, rfl⟩)
    | unicode hlength hn hsurrogate =>
      have hvalid := (isValidChar_iff_of_unicode hlength hn).mpr hsurrogate
      exact .inr (.inr ⟨rfl, hlength, _, hn, hvalid, rfl⟩)
  · rintro (hname | ⟨rfl, hlength, n, hn, -, rfl⟩ | ⟨rfl, hlength, n, hn, hvalid, rfl⟩)
    · exact .named hname
    · exact .octal hlength hn
    · exact .unicode hlength hn ((isValidChar_iff_of_unicode hlength hn).mp hvalid)

/-- A text of one character stands for that character alone. -/
theorem standsFor_singleton {d : Char} : StandsFor [d] c ↔ d = c := by
  constructor
  · intro h
    cases h with
    | itself => rfl
    | named hname =>
      obtain ⟨_, _, _, hbody, -⟩ := head_of_named hname
      cases hbody
    | octal hlength => cases hlength
    | unicode hlength => cases hlength
  · rintro rfl
    exact .itself d

theorem not_standsFor_nil : ¬ StandsFor [] c := by
  intro h
  cases h with
  | named hname =>
    obtain ⟨_, _, _, hbody, -⟩ := head_of_named hname
    cases hbody

theorem decode_of_named (h : (String.ofList body, c) ∈ named) : decode body = .ok c := by
  obtain ⟨d, e, rest, rfl, -⟩ := head_of_named h
  simp only [decode, ofName?_eq_some_iff.mpr h]

theorem decode_of_not_named {d e : Char} {rest : List Char}
    (h : ofName? (String.ofList (d :: e :: rest)) = none) :
    decode (d :: e :: rest) =
      if d = 'o' then ((codePoint? 8 3 (e :: rest)).map .ok).getD (.error .octal)
      else if d = 'u' then ((codePoint? 16 4 (e :: rest)).map .ok).getD (.error .unicode)
      else .error .character := by
  simp only [decode, h]

theorem getD_map_ok_eq_ok_iff {code : Option Char} {fault : CharLiteralFault} :
    (code.map Except.ok).getD (.error fault) = .ok c ↔ code = some c := by
  cases code <;> simp

theorem eq_of_getD_map_ok {code : Option Char} {fault fault' : CharLiteralFault}
    (h : (code.map Except.ok).getD (.error fault) = .error fault') : fault = fault' := by
  cases code with
  | none => simpa using h
  | some c => simp at h

/-- Decoding gives the character that a text stands for. -/
theorem decode_eq_ok_iff : decode body = .ok c ↔ StandsFor body c := by
  cases body with
  | nil => simp [decode, not_standsFor_nil]
  | cons d rest =>
    cases rest with
    | nil => simp [decode, standsFor_singleton]
    | cons e rest =>
      rw [standsFor_cons_cons, ← ofName?_eq_some_iff]
      cases hname : ofName? (String.ofList (d :: e :: rest)) with
      | some ch =>
        -- Names come first, which takes nothing away from the codes.
        have hnamed := ofName?_eq_some_iff.mp hname
        obtain ⟨_, _, _, hbody, ho, hu⟩ := head_of_named hnamed
        obtain ⟨rfl, -⟩ := List.cons.inj hbody
        simp [decode_of_named hnamed, ho, hu]
      | none =>
        rw [decode_of_not_named hname]
        by_cases ho : d = 'o'
        · subst ho
          simp [getD_map_ok_eq_ok_iff]
        · by_cases hu : d = 'u' <;> simp [ho, hu, getD_map_ok_eq_ok_iff]

/-- What is said of a text that stands for nothing depends on its first character, if that is not
all of it. -/
theorem message_of_decode {fault : CharLiteralFault} (h : decode body = .error fault) :
    fault.message = complaint body := by
  cases body with
  | nil => cases h; rfl
  | cons d rest =>
    cases rest with
    | nil => cases h
    | cons e rest =>
      cases hname : ofName? (String.ofList (d :: e :: rest)) with
      | some ch => rw [decode_of_named (ofName?_eq_some_iff.mp hname)] at h; cases h
      | none =>
        rw [decode_of_not_named hname] at h
        split at h
        · next ho =>
          rw [ho, ← eq_of_getD_map_ok h]
          rfl
        · next ho =>
          split at h
          · next hu =>
            rw [hu, ← eq_of_getD_map_ok h]
            rfl
          · next hu =>
            cases h
            simp [complaint, ho, hu, CharLiteralFault.message]

/-! ## 3. Decoding on bytes -/

/-- What is left of a text behind its first `n` bytes, if these end with a character. -/
def dropBytes? : (n : Nat) → List Char → Option (List Char)
  | 0, cs => some cs
  | _ + 1, [] => none
  | n + 1, c :: cs => if c.utf8Size ≤ n + 1 then dropBytes? (n + 1 - c.utf8Size) cs else none

/-- Puts a digit behind a number, if 32 bits hold the result. -/
def appendDigit? (base n v : Nat) : Option Nat :=
  if n * base + v < 2 ^ 32 then some (n * base + v) else none

/-- The character whose code stands behind the first byte of `body`, in as many digits as that has
other bytes. There is no answer if a step is not possible, and none in the answer if there is no
such character. -/
def codePointBytes? (base count : Nat) (body : List Char) : Option (Option Char) := do
  let digits ← dropBytes? 1 body
  if utf8Len digits = count then
    match digits.mapM (digitValue? base) with
    | none => return none
    | some values =>
      let n ← values.foldlM (appendDigit? base) 0
      return ofCode? n
  else return none

/-- Decodes on the bytes of a text, if every step is possible. -/
def decodeBytes? (body : List Char) : Option (Except CharLiteralFault Char) :=
  match body with
  | [] => some (.error .character)
  | [c] => some (.ok c)
  | c :: _ =>
    match ofName? (String.ofList body) with
    | some named => some (.ok named)
    | none =>
      if c = 'o' then
        (codePointBytes? 8 3 body).map fun code => (code.map .ok).getD (.error .octal)
      else if c = 'u' then
        (codePointBytes? 16 4 body).map fun code => (code.map .ok).getD (.error .unicode)
      else some (.error .character)

theorem dropBytes?_one (hc : c.utf8Size = 1) : dropBytes? 1 (c :: digits) = some digits := by
  simp [dropBytes?, hc]

theorem IsDigit.utf8Size (hbase : base ≤ 16) (h : IsDigit base c v) : c.utf8Size = 1 := by
  obtain ⟨hv, hlower⟩ := h
  have hcode := congrArg Char.toNat hlower
  rw [toNat_toLower, toNat_digitChar v (by omega)] at hcode
  rw [Char.utf8Size_eq_one_iff, UInt32.le_iff_toNat_le]
  show c.toNat ≤ 127
  split_ifs at hcode <;> omega

/-- Digits are as many as they have bytes. -/
theorem utf8Len_of_isDigit {values : List Nat} (hbase : base ≤ 16)
    (h : List.Forall₂ (IsDigit base) digits values) : utf8Len digits = digits.length := by
  induction h with
  | nil => rfl
  | cons hdigit _ ih => rw [String.utf8Len_cons, ih, hdigit.utf8Size hbase, List.length_cons]

/-- Digits are put together in 32 bits if there are few of them. What is there already is counted
one too high, since the digits to come may add up to nearly as much. -/
theorem foldlM_appendDigit? {values : List Nat} (hvalues : ∀ v ∈ values, v < base)
    (hfits : (n + 1) * base ^ values.length ≤ 2 ^ 32) :
    values.foldlM (appendDigit? base) n = some (values.foldl (fun n d => n * base + d) n) := by
  induction values generalizing n with
  | nil => rfl
  | cons v values ih =>
    obtain ⟨hv, hvalues⟩ := List.forall_mem_cons.mp hvalues
    have hlater : (n * base + v + 1) * base ^ values.length ≤ 2 ^ 32 := by
      have hstep : n * base + v + 1 ≤ (n + 1) * base := by
        rw [Nat.succ_mul]
        omega
      calc (n * base + v + 1) * base ^ values.length
          ≤ (n + 1) * base * base ^ values.length := Nat.mul_le_mul_right _ hstep
        _ = (n + 1) * base ^ (values.length + 1) := by rw [Nat.mul_assoc, ← Nat.pow_succ']
        _ ≤ 2 ^ 32 := hfits
    have hpos : 0 < base ^ values.length := Nat.pow_pos (by omega)
    have hnext : n * base + v < 2 ^ 32 := Nat.lt_of_lt_of_le
      (Nat.lt_of_succ_le (Nat.le_mul_of_pos_right _ hpos)) hlater
    rw [List.foldlM_cons, appendDigit?, if_pos hnext, List.foldl_cons, ← ih hvalues hlater]
    rfl

/-- Taken on bytes, every step to the character of a code is possible, and leads to the same. -/
theorem codePointBytes?_eq (hc : c.utf8Size = 1) (hbase : base ≤ 16)
    (hfits : base ^ count ≤ 2 ^ 32) :
    codePointBytes? base count (c :: digits) = some (codePoint? base count digits) := by
  rw [codePointBytes?, dropBytes?_one hc, codePoint?_eq]
  cases hvalues : digits.mapM (digitValue? base) with
  -- Bytes are not counted like characters here, but what is no digit is refused either way.
  | none => simp [number?, hvalues]
  | some values =>
    have hdigits : List.Forall₂ (IsDigit base) digits values := by
      simpa only [mapM_eq_some_iff, digitValue?_eq_some_iff hbase] using hvalues
    by_cases hcount : digits.length = count
    · have hnumber := foldlM_appendDigit? (n := 0) (lt_of_isDigit hdigits)
        (by rwa [← hdigits.length_eq, hcount, Nat.zero_add, Nat.one_mul])
      simp [utf8Len_of_isDigit hbase hdigits, hcount, number?, hvalues, hnumber]
    · simp [utf8Len_of_isDigit hbase hdigits, hcount]

theorem decodeBytes?_eq (body : List Char) : decodeBytes? body = some (decode body) := by
  cases body with
  | nil => rfl
  | cons d rest =>
    cases rest with
    | nil => rfl
    | cons e rest =>
      cases hname : ofName? (String.ofList (d :: e :: rest)) with
      | some ch => simp only [decodeBytes?, decode, hname]
      | none =>
        simp only [decodeBytes?, decode, hname]
        by_cases ho : d = 'o'
        · subst ho
          rw [if_pos rfl, if_pos rfl, codePointBytes?_eq (by decide) (by decide) (by decide)]
          rfl
        · rw [if_neg ho, if_neg ho]
          by_cases hu : d = 'u'
          · subst hu
            rw [if_pos rfl, if_pos rfl, codePointBytes?_eq (by decide) (by decide) (by decide)]
            rfl
          · rw [if_neg hu, if_neg hu]

/-! ## 4. The decoder -/

/-- Each fault has a wording of its own. -/
theorem message_inj {fault fault' : CharLiteralFault} (h : fault.message = fault'.message) :
    fault = fault' := by
  cases fault <;> cases fault' <;> first | rfl | exact absurd h (by decide)

/-- A text behind a backslash is decoded to the character that it stands for, and refused if there
is none. What is refused is called an octal or a unicode literal if it starts like one and has more
to it, and a character literal else. No step cuts a character in two or goes beyond 32 bits. -/
theorem decode_iff_standsFor (body : List Char) :
    (∀ c, decode body = .ok c ↔ StandsFor body c) ∧
    (∀ fault, decode body = .error fault ↔
      (∀ c, ¬ StandsFor body c) ∧ fault.message = complaint body) ∧
    decodeBytes? body = some (decode body) := by
  refine ⟨fun c => decode_eq_ok_iff, fun fault => ⟨fun h => ?_, ?_⟩, decodeBytes?_eq body⟩
  · refine ⟨fun c hc => ?_, message_of_decode h⟩
    rw [decode_eq_ok_iff.mpr hc] at h
    cases h
  · rintro ⟨hnone, hmessage⟩
    cases hdecode : decode body with
    | ok c => exact absurd (decode_eq_ok_iff.mp hdecode) (hnone c)
    | error fault' =>
      rw [← message_of_decode hdecode] at hmessage
      rw [message_inj hmessage]

end CharLiteral

end CljFormat
