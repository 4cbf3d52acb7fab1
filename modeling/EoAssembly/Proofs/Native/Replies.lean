import EoAssembly.Native.Registry
import Mathlib.Algebra.Group.Int.Defs
import Mathlib.Algebra.Group.Nat.Defs
import Mathlib.Data.List.Induction
import Mathlib.Data.List.OfFn

/-!
Contract: replies are read back from their bytes.

A reply is a tag and the eight bytes of its number, most significant first, an integer in two's
complement.  Of all byte strings exactly those of nine bytes that start with a tag are read, each
as the one reply that is written so; all others are refused with the locator of the function that
gave them.

Owns `Reply.Framed`, `NativeRegistry.Finds`, and these laws.
-/

namespace EoAssembly

/-- A locator is in the table, and a function is registered under its name. -/
def NativeRegistry.Finds (registry : NativeRegistry) (locator : String)
    (function : NativeFunction) : Prop :=
  ∃ name, registry.names.lookup locator = some name ∧ registry.functions.lookup name = some function

namespace Reply

variable {bytes content : List UInt8} {locator : String} {reply : Reply} {word : UInt64}

/-! ## Numbers and their bytes -/

@[simp] theorem length_bytesOf (count value : Nat) : (bytesOf count value).length = count := by
  induction count generalizing value with
  | zero => rfl
  | succ count inductionHypothesis =>
    rw [bytesOf, List.length_append, inductionHypothesis, List.length_singleton]

theorem numberOf_concat (front : List UInt8) (last : UInt8) :
    numberOf (front ++ [last]) = numberOf front * 256 + last.toNat := by
  simp [numberOf]

theorem numberOf_bytesOf (count value : Nat) :
    numberOf (bytesOf count value) = value % 256 ^ count := by
  induction count generalizing value with
  | zero => rw [Nat.pow_zero, Nat.mod_one]; rfl
  | succ count inductionHypothesis =>
    have low : (UInt8.ofNat (value % 256)).toNat = value % 256 := by
      rw [UInt8.toNat_ofNat']
      omega
    rw [bytesOf, numberOf_concat, inductionHypothesis, low, Nat.pow_succ', Nat.mod_mul]
    omega

theorem numberOf_lt (bytes : List UInt8) : numberOf bytes < 256 ^ bytes.length := by
  induction bytes using List.reverseRecOn with
  | nil => exact Nat.one_pos
  | append_singleton front last inductionHypothesis =>
    have small := last.toNat_lt
    rw [numberOf_concat, List.length_append, List.length_singleton, Nat.pow_succ']
    omega

theorem bytesOf_numberOf (bytes : List UInt8) : bytesOf bytes.length (numberOf bytes) = bytes := by
  induction bytes using List.reverseRecOn with
  | nil => rfl
  | append_singleton front last inductionHypothesis =>
    have small := last.toNat_lt
    have before : (numberOf front * 256 + last.toNat) / 256 = numberOf front := by omega
    have low : (numberOf front * 256 + last.toNat) % 256 = last.toNat := by omega
    rw [List.length_append, List.length_singleton, bytesOf, numberOf_concat, before, low,
      inductionHypothesis, UInt8.ofNat_toNat]

theorem bytesOf_eq_ofFn (count value : Nat) : bytesOf count value =
    List.ofFn fun place : Fin count =>
      UInt8.ofNat (value / 256 ^ (count - 1 - place.val) % 256) := by
  induction count generalizing value with
  | zero => rfl
  | succ count inductionHypothesis =>
    rw [bytesOf, inductionHypothesis, List.ofFn_succ', List.concat_eq_append]
    congr 2
    · funext place
      have next : count + 1 - 1 - place.castSucc.val = count - 1 - place.val + 1 := by
        have inside := place.isLt
        rw [Fin.val_castSucc]
        omega
      rw [next, Nat.div_div_eq_div_mul, Nat.pow_succ']
    · simp

/-- Byte `place` of the eight bytes of a number, most significant first. -/
def byteAt (number : Int) (place : Fin 8) : UInt8 :=
  UInt8.ofNat (number / 256 ^ (7 - place.val) % 256).toNat

theorem bytesOf_eight (value : Nat) : bytesOf 8 value = List.ofFn (byteAt value) := by
  rw [bytesOf_eq_ofFn]
  exact congrArg List.ofFn (funext fun _ => rfl)

theorem toNat_toUInt64 (value : Int64) : (value.toUInt64.toNat : Int) = value.toInt % 2 ^ 64 := by
  have signed : value.toInt = (value.toUInt64.toNat : Int).bmod (2 ^ 64) :=
    BitVec.toInt_eq_toNat_bmod value.toBitVec
  have bound := value.toUInt64.toNat_lt
  rw [signed, show (2 : Int) ^ 64 = ((2 ^ 64 : Nat) : Int) from rfl, Int.bmod_emod]
  omega

/-- The bytes of an integer are those of its two's complement. -/
theorem byteAt_toUInt64 (value : Int64) (place : Fin 8) :
    byteAt value.toUInt64.toNat place = byteAt value.toInt place := by
  have same : value.toInt % 2 ^ 64 / 256 ^ (7 - place.val) % 256 =
      value.toInt / 256 ^ (7 - place.val) % 256 := by
    obtain ⟨number, small⟩ := place
    match number, small with
    | 0, _ | 1, _ | 2, _ | 3, _ | 4, _ | 5, _ | 6, _ | 7, _ =>
      simp only [Nat.reduceSub, Int.reducePow]
      omega
  unfold byteAt
  rw [toNat_toUInt64, same]

/-! ## Replies and their bytes -/

theorem word?_eq_some : word? content = some word ↔ content = bytesOf 8 word.toNat := by
  unfold word?
  constructor
  · intro found
    split at found
    · next eight =>
      have number : word.toNat = numberOf content := by
        have bound := numberOf_lt content
        rw [eight] at bound
        rw [← Option.some.inj found, UInt64.toNat_ofNat']
        omega
      rw [number, ← eight, bytesOf_numberOf]
    · exact absurd found (by simp)
  · rintro rfl
    rw [length_bytesOf, if_pos rfl, numberOf_bytesOf]
    have bound := word.toNat_lt
    rw [Nat.mod_eq_of_lt (by omega), UInt64.ofNat_toNat]

theorem word?_isSome : (word? content).isSome = true ↔ content.length = 8 := by
  unfold word?
  split <;> simp [*]

/-- Nine bytes behind one of the two tags. -/
structure Framed (bytes : List UInt8) : Prop where
  length : bytes.length = 9
  tag : bytes.head? = some 1 ∨ bytes.head? = some 2

instance (bytes : List UInt8) : Decidable (Framed bytes) :=
  decidable_of_iff (bytes.length = 9 ∧ (bytes.head? = some 1 ∨ bytes.head? = some 2))
    ⟨fun parts => ⟨parts.1, parts.2⟩, fun framed => ⟨framed.length, framed.tag⟩⟩

theorem decode_encode (locator : String) (reply : Reply) :
    decode locator (encode reply) = .ok reply := by
  cases reply with
  | float bits =>
    have word : word? (bytesOf 8 bits.toNat) = some bits := word?_eq_some.2 rfl
    simp [encode, decode, word]
  | int value =>
    have word : word? (bytesOf 8 value.toUInt64.toNat) = some value.toUInt64 := word?_eq_some.2 rfl
    simp [encode, decode, word]

theorem framed_cons {tag : UInt8} :
    Framed (tag :: content) ↔ content.length = 8 ∧ (tag = 1 ∨ tag = 2) := by
  constructor
  · rintro ⟨length, isTag⟩
    exact ⟨Nat.succ.inj length, by simpa using isTag⟩
  · rintro ⟨length, isTag⟩
    exact ⟨congrArg Nat.succ length, by simpa using isTag⟩

/-- What reading a byte string comes to. -/
inductive Decodes (locator : String) (bytes : List UInt8) : Except Failure Reply → Prop where
  | reply (reply : Reply) (framed : Framed bytes) (written : encode reply = bytes) :
    Decodes locator bytes (.ok reply)
  | refused (message : String) (unframed : ¬Framed bytes) :
    Decodes locator bytes (.error (.nativeReply locator message))

/-- Behind one of the two tags eight bytes are a reply, and any others are refused. -/
theorem decodes_word {tag : UInt8} {make : UInt64 → Reply} (isTag : tag = 1 ∨ tag = 2)
    (written : ∀ word, encode (make word) = tag :: bytesOf 8 word.toNat) (message : String) :
    Decodes locator (tag :: content)
      (match word? content with
        | some word => .ok (make word)
        | none => .error (.nativeReply locator message)) := by
  cases found : word? content with
  | none =>
    refine .refused _ fun framed => ?_
    have eight := word?_isSome.2 (framed_cons.1 framed).1
    rw [found] at eight
    exact absurd eight (by simp)
  | some word =>
    have eight : content.length = 8 := word?_isSome.1 (by rw [found]; rfl)
    refine .reply _ (framed_cons.2 ⟨eight, isTag⟩) ?_
    rw [written, ← word?_eq_some.1 found]

theorem decodes (locator : String) (bytes : List UInt8) :
    Decodes locator bytes (decode locator bytes) := by
  cases bytes with
  | nil => exact .refused _ (by decide)
  | cons tag content =>
    unfold decode
    split
    · next empty => exact absurd empty (by simp)
    · next first rest same =>
      obtain ⟨rfl, rfl⟩ := List.cons.inj same
      split
      · next isObject => exact .refused _ (by rw [framed_cons, isObject]; simp)
      · split
        · next isFloat =>
          subst isFloat
          exact decodes_word (Or.inl rfl) (fun _ => rfl) _
        · split
          · next isInt =>
            subst isInt
            exact decodes_word (Or.inr rfl) (fun _ => rfl) _
          · next notFloat notInt =>
            exact .refused _ (by rw [framed_cons]; simp [notFloat, notInt])

theorem of_decode_ok (ok : decode locator bytes = .ok reply) :
    Framed bytes ∧ encode reply = bytes := by
  have outcome := decodes locator bytes
  rw [ok] at outcome
  cases outcome with
  | reply _ framed written => exact ⟨framed, written⟩

theorem decode_of_framed (framed : Framed bytes) : ∃ reply, decode locator bytes = .ok reply := by
  have outcome := decodes locator bytes
  generalize decode locator bytes = result at outcome ⊢
  cases outcome with
  | reply reply => exact ⟨reply, rfl⟩
  | refused _ unframed => exact absurd framed unframed

theorem decode_of_not_framed (unframed : ¬Framed bytes) :
    ∃ message, decode locator bytes = .error (.nativeReply locator message) := by
  have outcome := decodes locator bytes
  generalize decode locator bytes = result at outcome ⊢
  cases outcome with
  | reply _ framed => exact absurd framed unframed
  | refused message => exact ⟨message, rfl⟩

theorem encode_float (bits : UInt64) : encode (.float bits) = 1 :: List.ofFn (byteAt bits.toNat) :=
  congrArg (1 :: ·) (bytesOf_eight bits.toNat)

theorem encode_int (value : Int64) : encode (.int value) = 2 :: List.ofFn (byteAt value.toInt) := by
  have written : encode (.int value) = 2 :: bytesOf 8 value.toUInt64.toNat := rfl
  rw [written, bytesOf_eight, funext (byteAt_toUInt64 value)]

/-- A call comes to what the bytes of the function that is found are read as. -/
theorem call_of_finds {registry : NativeRegistry} {function : NativeFunction}
    (finds : registry.Finds locator function) (input : List UInt8) :
    registry.call locator input = decode locator (function input) := by
  obtain ⟨name, found, isFunction⟩ := finds
  unfold NativeRegistry.call NativeRegistry.resolve
  rw [found, Option.bind_some, isFunction]

/-! ## Round trips -/

/-- A float is written with the tag 1 and its bits, an integer with the tag 2 and its two's
complement, each as eight bytes, most significant first.  Every reply is read back from its bytes.
Nine bytes behind one of these tags are read, as the reply that is written so, and all else is
refused with the locator.  A call comes to what the bytes of the function registered for the locator
are read as. -/
theorem replies_read_back (locator : String) :
    ((∀ bits, encode (.float bits) = 1 :: List.ofFn (byteAt bits.toNat)) ∧
      ∀ value, encode (.int value) = 2 :: List.ofFn (byteAt value.toInt)) ∧
    (∀ reply, decode locator (encode reply) = .ok reply) ∧
    (∀ bytes, (∃ reply, decode locator bytes = .ok reply) ↔ Framed bytes) ∧
    (∀ bytes reply, decode locator bytes = .ok reply → encode reply = bytes) ∧
    (∀ bytes, ¬Framed bytes →
      ∃ message, decode locator bytes = .error (.nativeReply locator message)) ∧
    ∀ (registry : NativeRegistry) (function : NativeFunction), registry.Finds locator function →
      ∀ input, registry.call locator input = decode locator (function input) :=
  ⟨⟨encode_float, encode_int⟩, decode_encode locator,
    fun _ => ⟨fun ⟨_, ok⟩ => (of_decode_ok ok).1, decode_of_framed⟩,
    fun _ _ ok => (of_decode_ok ok).2,
    fun _ => decode_of_not_framed, fun _ _ => call_of_finds⟩

/-- A registry whose one function repeats its input. -/
def echoing : NativeRegistry :=
  (NativeRegistry.ofNames [("p:3", "t0")]).register "t0" id

/-- A NaN that signals and the least integer keep all of their bits, as a reply of a function too,
and a byte less is refused. -/
theorem nan_read_back :
    decode "p:3" (encode (.float 0xFFF4000000000001)) = .ok (.float 0xFFF4000000000001) ∧
    encode (.int Int64.minValue) = [2, 128, 0, 0, 0, 0, 0, 0, 0] ∧
    decode "p:3" [2, 128, 0, 0, 0, 0, 0, 0, 0] = .ok (.int Int64.minValue) ∧
    (∃ message, decode "p:3" [1, 255, 244, 0, 0, 0, 0, 1] = .error (.nativeReply "p:3" message)) ∧
    echoing.Finds "p:3" id ∧
    echoing.call "p:3" (encode (.float 0xFFF4000000000001)) = .ok (.float 0xFFF4000000000001) := by
  obtain ⟨_, readsBack, _, canonical, refused, calls⟩ := replies_read_back "p:3"
  have least : decode "p:3" [2, 128, 0, 0, 0, 0, 0, 0, 0] = .ok (.int Int64.minValue) := by
    decide +kernel
  have finds : echoing.Finds "p:3" id := ⟨"t0", by decide +kernel, rfl⟩
  refine ⟨readsBack _, canonical _ _ least, least, refused _ (by decide), finds, ?_⟩
  rw [calls echoing id finds]
  exact readsBack _

end Reply

end EoAssembly
