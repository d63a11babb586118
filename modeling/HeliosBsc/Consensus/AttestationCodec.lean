import HeliosBsc.Consensus.VoteRlp

/-!
# An attestation has one spelling

The decoder of `vote.rs` and the encoder of `rlp_util.rs` are inverse to each other: what is decoded
encodes to the bytes it came from, and what is encoded decodes to itself.
-/

namespace HeliosBsc

open Checked BigEndian

theorem uintBytes_of_uintOf {b : Bytes} {n : ℕ} (h : uintOf b = .ok n) :
    uintBytes n = b ∧ n < u64Size := by
  simp only [uintOf, bind_eq_ok, require_eq_ok, pure_eq_ok, Except.ok.injEq, exists_const] at h
  obtain ⟨hlen, hhead, rfl⟩ := h
  exact ⟨strip_bytes_value (by omega) hhead, value_lt_u64Size hlen⟩

theorem strOf_eq_ok {item : Rlp} {b : Bytes} (h : strOf item = .ok b) : item = .bytes b := by
  cases item with
  | bytes s =>
    obtain rfl := Except.ok.inj h
    rfl
  | list l => cases h

theorem listOf_eq_ok {item : Rlp} {l : List Rlp} (h : listOf item = .ok l) : item = .list l := by
  cases item with
  | bytes s => cases h
  | list l' =>
    obtain rfl := Except.ok.inj h
    rfl

theorem fixedStr_eq_ok {n : ℕ} {b : Bytes} {what : String} {x : FixedBytes n}
    (h : fixedStr n b what = .ok x) : x.val = b := by
  unfold fixedStr at h
  split at h
  · obtain rfl := Except.ok.inj h
    rfl
  · cases h

theorem encodeRlp_of_uintOf {b : Bytes} {n : ℕ} (h : uintOf b = .ok n) :
    encodeRlp (.bytes b) = encodeUint128 n := by
  rw [encodeUint128_eq, (uintBytes_of_uintOf h).1, encodeRlp]

theorem encodeRlp_of_fixedStr {n : ℕ} {b : Bytes} {what : String} {x : FixedBytes n}
    (h : fixedStr n b what = .ok x) : encodeRlp (.bytes b) = encodeBytes x.val := by
  rw [fixedStr_eq_ok h, encodeRlp]

theorem encodeRlp_of_readVoteData {fields : List Rlp} {d : VoteData}
    (h : readVoteData fields = .ok d) : encodeRlp (.list fields) = d.encode := by
  unfold readVoteData at h
  split at h
  · next sn sh tn th =>
    simp only [bind_eq_ok, pure_eq_ok, Except.ok.injEq] at h
    obtain ⟨b₁, hb₁, n₁, hn₁, b₂, hb₂, x₁, hx₁, b₃, hb₃, n₂, hn₂, b₄, hb₄, x₂, hx₂, rfl⟩ := h
    rw [strOf_eq_ok hb₁, strOf_eq_ok hb₂, strOf_eq_ok hb₃, strOf_eq_ok hb₄, encodeRlp_list,
      VoteData.encode]
    simp only [List.map_cons, List.map_nil, encodeRlp_of_uintOf hn₁, encodeRlp_of_uintOf hn₂,
      encodeRlp_of_fixedStr hx₁, encodeRlp_of_fixedStr hx₂]
  · cases h

/-- What is decoded encodes to the bytes it came from. -/
theorem encode_of_decodeVoteAttestation {raw : Bytes} {a : VoteAttestation}
    (h : decodeVoteAttestation raw = .ok (some a)) : a.encode = raw := by
  unfold decodeVoteAttestation at h
  split at h
  · cases h
  simp only [bind_eq_ok] at h
  obtain ⟨top, htop, items, hitems, h⟩ := h
  have hraw := encodeRlp_of_decode ((decodeTop_eq_ok_iff_decode raw top).mp htop).1
  split at h
  · next set sig data extra =>
    simp only [bind_eq_ok, pure_eq_ok, Except.ok.injEq, Option.some.injEq] at h
    obtain ⟨b₁, hb₁, n, hn, b₂, hb₂, x, hx, fields, hfields, d, hd, b₃, hb₃, rfl⟩ := h
    rw [← hraw, listOf_eq_ok hitems, strOf_eq_ok hb₁, strOf_eq_ok hb₂, listOf_eq_ok hfields,
      strOf_eq_ok hb₃, encodeRlp_list, VoteAttestation.encode]
    simp only [List.map_cons, List.map_nil, encodeRlp_of_uintOf hn, encodeRlp_of_fixedStr hx,
      encodeRlp_of_readVoteData hd]
    rw [encodeRlp]
  · cases h

/-- Decoding and encoding an attestation are inverse to each other, so that two headers whose
attestation regions decode to one attestation carry the same region. -/
theorem attestation_codec (raw : Bytes) (a : VoteAttestation) :
    (decodeVoteAttestation raw = .ok (some a) → a.encode = raw) ∧
    (a.Typed → decodeVoteAttestation a.encode = .ok (some a)) ∧
    ∀ h₁ h₂ : ParsedExtra, decodeVoteAttestation h₁.attestation = .ok (some a) →
      decodeVoteAttestation h₂.attestation = .ok (some a) → h₁.attestation = h₂.attestation := by
  refine ⟨encode_of_decodeVoteAttestation, decodeVoteAttestation_encode, ?_⟩
  intro h₁ h₂ hd₁ hd₂
  rw [← encode_of_decodeVoteAttestation hd₁, encode_of_decodeVoteAttestation hd₂]

/-- The attestation of the synthetic test of `vote.rs`. -/
def sampleAttestation : VoteAttestation where
  voteAddressSet := 3
  aggSignature := .repeated 96 0x11
  data := ⟨1, .repeated 32 0x22, 2, .repeated 32 0x33⟩
  extra := [0x78]

theorem sampleAttestation_typed : sampleAttestation.Typed := by
  refine ⟨?_, ⟨?_, ?_⟩, ?_⟩
  · rw [u64Size_eq]
    decide
  · rw [u64Size_eq]
    decide
  · rw [u64Size_eq]
    decide
  · decide

/-- The region of an extra that holds the encoded attestation of the test. -/
def sampleExtra (vanity : Bytes) : ParsedExtra where
  vanity := vanity
  nextForkHash := []
  validators := []
  turnLength := none
  attestation := sampleAttestation.encode
  sealBytes := []

theorem sampleExtra_attestation (vanity : Bytes) :
    (sampleExtra vanity).attestation = sampleAttestation.encode := by
  rw [sampleExtra]

/-- The test's attestation, read from its encoding in two extras. -/
theorem attestation_codec_sample :
    (∃ raw, decodeVoteAttestation raw = .ok (some sampleAttestation) ∧
      sampleAttestation.encode = raw) ∧
    (sampleAttestation.Typed ∧
      decodeVoteAttestation sampleAttestation.encode = .ok (some sampleAttestation)) ∧
    ∃ h₁ h₂ : ParsedExtra, h₁.vanity ≠ h₂.vanity ∧ h₁.attestation = h₂.attestation := by
  have hcodec := attestation_codec sampleAttestation.encode sampleAttestation
  have hread := hcodec.2.1 sampleAttestation_typed
  refine ⟨⟨sampleAttestation.encode, hread, hcodec.1 hread⟩, ⟨sampleAttestation_typed, hread⟩,
    sampleExtra [], sampleExtra [0], (List.cons_ne_nil _ _).symm, hcodec.2.2 _ _ ?_ ?_⟩
  · rw [sampleExtra_attestation, hread]
  · rw [sampleExtra_attestation, hread]

end HeliosBsc
