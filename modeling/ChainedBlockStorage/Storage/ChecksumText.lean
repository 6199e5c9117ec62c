/-
The text that `Storage::checksum` makes of a digest, and that the nodes of a chain compare (`ChecksumChain`).

The sixteen bytes are written in hexadecimal one after another, those below 16 with one digit, so the text does not say
where a byte ends: 1, 11, 0, ... and 11, 1, 0, ... are both 1110...

- `hexString_unique_iff`: the digests whose text no other digest has.
- `hexString_collides`: two digests with the same text.
-/
import ChainedBlockStorage.Core.Numerals
import ChainedBlockStorage.Storage.Digest

namespace ChainedBlockStorage.Storage

open Numerals

/-- `MD5_DIGEST_LENGTH` -/
def md5DigestLength : ℕ := 16

/-- `final_result` -/
abbrev Digest := List.Vector UInt8 md5DigestLength

/-- the bytes as numbers -/
def byteValues (bytes : List UInt8) : List ℕ := bytes.map UInt8.toNat

theorem byteValues_lt (bytes : List UInt8) : ∀ b ∈ byteValues bytes, b < 16 * 16 := by
  intro b hb
  obtain ⟨x, -, rfl⟩ := List.mem_map.1 hb
  exact x.toNat_lt

theorem byteValues_inj {bytes bytes' : List UInt8} : byteValues bytes = byteValues bytes' ↔ bytes = bytes' :=
  (List.map_injective_iff.2 fun _ _ => UInt8.toNat_inj.1).eq_iff

/-- every number below 256 is a byte -/
theorem exists_byteValues {l : List ℕ} (hl : ∀ b ∈ l, b < 16 * 16) : ∃ bytes, byteValues bytes = l := by
  refine ⟨l.map UInt8.ofNat, ?_⟩
  rw [byteValues, List.map_map]
  refine (List.map_congr_left fun b hb => ?_).trans (List.map_id l)
  exact UInt8.toNat_ofNat_of_lt' (hl b hb)

theorem digitChar_inj {a b : ℕ} (ha : a < 16) (hb : b < 16) (h : Nat.digitChar a = Nat.digitChar b) : a = b := by
  have : ∀ a < 16, ∀ b < 16, Nat.digitChar a = Nat.digitChar b → a = b := by decide
  exact this a ha b hb h

theorem toDigits_numeral {b : ℕ} (hb : b < 16 * 16) : Nat.toDigits 16 b = (numeral 16 b).map Nat.digitChar := by
  unfold numeral
  split_ifs with h
  · exact Nat.toDigits_of_lt_base h
  · have hdiv : b / 16 < 16 := Nat.div_lt_of_lt_mul hb
    rw [Nat.toDigits_of_base_le (by decide) (Nat.not_lt.1 h), Nat.toDigits_of_lt_base hdiv]
    rfl

theorem hexString_toList (bytes : List UInt8) :
    (hexString bytes).toList = (text 16 (byteValues bytes)).map Nat.digitChar := by
  rw [hexString, String.toList_join, List.flatMap_map, text, byteValues, List.flatMap_map, List.map_flatMap]
  refine List.flatMap_congr fun b _ => ?_
  rw [String.toList_ofList]
  exact toDigits_numeral b.toNat_lt

/-- equal strings are equal digits -/
theorem hexString_eq_iff (bytes bytes' : List UInt8) :
    hexString bytes = hexString bytes' ↔ text 16 (byteValues bytes) = text 16 (byteValues bytes') := by
  rw [← String.toList_inj, hexString_toList, hexString_toList]
  refine map_inj_of_mem _ _ fun c hc d hd h => ?_
  exact digitChar_inj (lt_of_mem_text (byteValues_lt _) c hc) (lt_of_mem_text (byteValues_lt _) d hd) h

/-- no other digest has this text: every byte is below 16; or every byte is followed by one that no digit can move to
or from (a byte that is not 0 has two digits, and the second one is 0 where the next byte has only one) -/
def Legible (d : Digest) : Prop :=
  (∀ b ∈ byteValues d.toList, b < 16) ∨ (byteValues d.toList).IsChain (Apart 16)

/-- **Which digests the text determines.** Every other digest has another text, if and only if the digest is
legible. -/
theorem hexString_unique_iff (d : Digest) :
    (∀ d' : Digest, d' ≠ d → hexString d'.toList ≠ hexString d.toList) ↔ Legible d := by
  rw [Legible, ← unique_iff (by decide) (byteValues_lt d.toList)]
  constructor
  · intro h m hm hlen htext
    obtain ⟨bytes, rfl⟩ := exists_byteValues hm
    have hbytes : bytes.length = md5DigestLength := by
      simpa [byteValues] using hlen
    by_contra hne
    refine h ⟨bytes, hbytes⟩ (fun he => hne (by rw [← he]; rfl)) ?_
    exact (hexString_eq_iff _ _).2 htext
  · intro h d' hne htext
    have hlen : (byteValues d'.toList).length = (byteValues d.toList).length := by
      simp [byteValues]
    have := h _ (byteValues_lt d'.toList) hlen ((hexString_eq_iff _ _).1 htext)
    exact hne (Subtype.ext (byteValues_inj.1 this))

/-- **Two digests with one text.** -/
theorem hexString_collides : ¬ ∀ d d' : Digest, d ≠ d' → hexString d.toList ≠ hexString d'.toList := by
  intro h
  refine h ⟨[1, 17, 0, 0, 0, 0, 0, 0, 0, 0, 0, 0, 0, 0, 0, 0], rfl⟩
    ⟨[17, 1, 0, 0, 0, 0, 0, 0, 0, 0, 0, 0, 0, 0, 0, 0], rfl⟩ (fun he => absurd (Subtype.ext_iff.1 he) (by decide)) ?_
  rw [hexString_eq_iff]
  decide

end ChainedBlockStorage.Storage
