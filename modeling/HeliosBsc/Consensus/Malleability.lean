import HeliosBsc.Consensus.SnapshotStep
import HeliosBsc.Mock.SoleSealer

/-!
# The recovery byte of a seal

`ecrecover` takes 27 off a recovery byte that has it, the seal hash leaves the seal out, and the
header hash takes the byte as it is. So the two spellings of a recovery id are sealed by one
signature and have a hash each; no other byte goes with that signature.
-/

namespace HeliosBsc

open Checked

/-- The recovery id that a recovery byte spells. -/
def recId (v : UInt8) : ℕ := if 27 ≤ v.toNat then v.toNat - 27 else v.toNat

/-- From one digest and one `(r, s)`, two recovery ids never recover the same address. -/
def DistinctRecovery (P : Primitives) : Prop :=
  ∀ digest rs i j pk pk' address, i ≤ 3 → j ≤ 3 →
    P.recoverEcdsa digest rs i = .ok pk → P.recoverEcdsa digest rs j = .ok pk' →
    addressFromPubkeyUncompressed P pk = .ok address →
    addressFromPubkeyUncompressed P pk' = .ok address → i = j

/-- The header with another `extraData` and another hash. -/
def RpcBlockHeader.resealed (header : RpcBlockHeader) (extraData hash : String) :
    RpcBlockHeader :=
  { header with
    extraData := extraData
    hash := hash }

section

variable {P : Primitives} {header : RpcBlockHeader} {rest : Bytes} {v v' : UInt8}
  {extraData extraData' hash hash' : String}

theorem sealPreimage_resealed (h : decodeHex extraData = .ok (rest ++ [v]))
    (h' : decodeHex extraData' = .ok (rest ++ [v'])) (chainId : ℕ) :
    sealPreimage (header.resealed extraData hash) chainId =
      sealPreimage (header.resealed extraData' hash') chainId := by
  have hlength : ∀ w : UInt8, (rest ++ [w]).length = rest.length + 1 := fun w =>
    List.length_append
  have htake : ∀ w : UInt8, (rest ++ [w]).take (rest.length + 1 - extraSeal) =
      rest.take (rest.length + 1 - extraSeal) := by
    intro w
    rw [List.take_append_of_le_length]
    unfold extraSeal
    omega
  unfold sealPreimage RpcBlockHeader.resealed
  simp only [h, h', mapError_ok, ok_bind, htake, hlength]

theorem headerPreimage_resealed (h : decodeHex extraData = .ok rest)
    (h' : decodeHex extraData' = .ok rest) :
    headerPreimage (header.resealed extraData hash) =
      headerPreimage (header.resealed extraData' hash') := by
  unfold headerPreimage RpcBlockHeader.resealed
  simp only [h, h']

theorem recoverSigner_eq_ok {chainId : ℕ} {signer : Address}
    (hextra : decodeHex header.extraData = .ok (rest ++ [v]))
    (h : recoverSigner P header chainId = .ok signer) :
    ∃ digest pk, sealHash P header chainId = .ok digest ∧ recId v ≤ 3 ∧
      P.recoverEcdsa digest (rest.drop (rest.length - 64)) (recId v) = .ok pk ∧
      addressFromPubkeyUncompressed P pk = .ok signer := by
  simp only [recoverSigner, hextra, mapError_ok, ok_bind, bind_eq_ok, require_eq_ok] at h
  obtain ⟨-, hlong, digest, hdigest, hrec⟩ := h
  have hlength : (rest ++ [v]).length = rest.length + 1 := List.length_append
  have hseal : (rest ++ [v]).drop ((rest ++ [v]).length - extraSeal) =
      rest.drop (rest.length - 64) ++ [v] := by
    rw [hlength, List.drop_append_of_le_length (by unfold extraSeal; omega)]
    rfl
  have hrs : (rest.drop (rest.length - 64)).length = 64 := by
    unfold extraSeal at hlong
    rw [List.length_drop]
    omega
  have hbyte : (rest.drop (rest.length - 64) ++ [v]).getD 64 0 = v := by
    rw [List.getD_eq_getElem?_getD, List.getElem?_append_right hrs.le, hrs]
    rfl
  simp only [ecrecover, hseal, bind_eq_ok, require_eq_ok, mapError_eq_ok, hbyte,
    List.take_left' hrs] at hrec
  obtain ⟨-, -, -, hid, pk, hpk, haddress⟩ := hrec
  exact ⟨digest, pk, hdigest, hid, hpk, haddress⟩

end

/-- Two accepted headers that differ in the recovery byte and the hash alone: their bytes spell the
same recovery id, so they are equal or 27 apart, and equal bytes have one hash. -/
theorem seal_spellings {P : Primitives} (hdistinct : DistinctRecovery P) (header : RpcBlockHeader)
    (rest : Bytes) {v₁ v₂ : UInt8} {extra₁ extra₂ hash₁ hash₂ : String} {now₁ now₂ : ℕ}
    {signer₁ signer₂ : Address} (hextra₁ : decodeHex extra₁ = .ok (rest ++ [v₁]))
    (hextra₂ : decodeHex extra₂ = .ok (rest ++ [v₂]))
    (h₁ : verifySealCoinbase P (header.resealed extra₁ hash₁) now₁ = .ok signer₁)
    (h₂ : verifySealCoinbase P (header.resealed extra₂ hash₂) now₂ = .ok signer₂) :
    (v₁.toNat = v₂.toNat ∨ v₁.toNat = v₂.toNat + 27 ∨ v₂.toNat = v₁.toNat + 27) ∧
      (v₁ = v₂ → decodeHexFixed 32 hash₁ = decodeHexFixed 32 hash₂) := by
  have hok₁ := sealOk_of_verify h₁
  have hok₂ := sealOk_of_verify h₂
  have hread₁ : decodeHex (header.resealed extra₁ hash₁).extraData = .ok (rest ++ [v₁]) := hextra₁
  have hread₂ : decodeHex (header.resealed extra₂ hash₂).extraData = .ok (rest ++ [v₂]) := hextra₂
  constructor
  · obtain ⟨digest₁, pk₁, hdigest₁, hid₁, hpk₁, haddress₁⟩ :=
      recoverSigner_eq_ok hread₁ hok₁.recovered
    obtain ⟨digest₂, pk₂, hdigest₂, hid₂, hpk₂, haddress₂⟩ :=
      recoverSigner_eq_ok hread₂ hok₂.recovered
    have hdigest : digest₁ = digest₂ := by
      unfold sealHash at hdigest₁ hdigest₂
      rw [sealPreimage_resealed hextra₁ hextra₂, hdigest₂] at hdigest₁
      exact (Except.ok.inj hdigest₁).symm
    have hsigner : signer₁ = signer₂ := Except.ok.inj (hok₁.miner.symm.trans hok₂.miner)
    subst hdigest hsigner
    have hid := hdistinct _ _ _ _ _ _ _ hid₁ hid₂ hpk₁ hpk₂ haddress₁ haddress₂
    unfold recId at hid hid₁ hid₂
    split_ifs at hid hid₁ hid₂ <;> omega
  · rintro rfl
    obtain ⟨computed₁, hcomputed₁, hclaimed₁⟩ := hok₁.hash_eq
    obtain ⟨computed₂, hcomputed₂, hclaimed₂⟩ := hok₂.hash_eq
    unfold headerHash at hcomputed₁ hcomputed₂
    rw [headerPreimage_resealed hextra₁ hextra₂, hcomputed₂] at hcomputed₁
    obtain rfl := Except.ok.inj hcomputed₁
    exact hclaimed₁.trans hclaimed₂.symm

/-! ## Both spellings are accepted -/

/-- A scheme in which a signature is the public key and only the recovery id 0 recovers. -/
def singleIdPrimitives : Primitives :=
  { mockPrimitives with
    recoverEcdsa := fun _ signature i =>
      if i = 0 then .ok (0x04 :: signature) else .error "no point for this id" }

theorem distinctRecovery_singleId : DistinctRecovery singleIdPrimitives := by
  intro digest rs i j pk pk' address _ _ hi hj _ _
  have hzero : ∀ {k : ℕ} {key : Bytes}, singleIdPrimitives.recoverEcdsa digest rs k = .ok key →
      k = 0 := by
    intro k key hk
    by_contra hne
    have herror : singleIdPrimitives.recoverEcdsa digest rs k = .error "no point for this id" :=
      if_neg hne
    rw [herror] at hk
    cases hk
  rw [hzero hi, hzero hj]

/-- The two spellings of a recovery id recover the same address. -/
theorem ecrecover_of_recId {P : Primitives} {rs : Bytes} {v w : UInt8} (digest : Hash)
    (hrs : rs.length = 64) (hid : recId v ≤ 3) (h : recId w = recId v) :
    ecrecover P digest (rs ++ [w]) = ecrecover P digest (rs ++ [v]) := by
  have hread : ∀ x : UInt8, recId x ≤ 3 → ecrecover P digest (rs ++ [x]) = (do
      let pk ← (P.recoverEcdsa digest rs (recId x)).mapError .recover
      (addressFromPubkeyUncompressed P pk).mapError .types) := by
    intro x hx
    have hlength : (rs ++ [x]).length = extraSeal := by
      rw [List.length_append, hrs]
      rfl
    have hbyte : (rs ++ [x]).getD 64 0 = x := by
      rw [List.getD_eq_getElem?_getD, List.getElem?_append_right hrs.le, hrs]
      rfl
    unfold recId at hx ⊢
    simp only [ecrecover, require_of hlength, ok_bind, hbyte, require_of hx, List.take_left' hrs]
  rw [hread v hid, hread w (h.le.trans hid), h]

/-- The seal of the sample, with a recovery byte. -/
def sampleSeal (v : UInt8) : FixedBytes 65 where
  val := (FixedBytes.repeated 64 1).val ++ [v]
  len := rfl

def sampleSigner : SecretKey singleIdPrimitives where
  pubkey := (mockKey 1).pubkey
  sign := (mockKey 1).sign
  recovers _ := rfl

theorem ecrecover_sampleSeal (digest : Hash) (v : UInt8) (hv : recId v = 0) :
    ecrecover singleIdPrimitives digest (sampleSeal v).val = .ok sampleSigner.address := by
  have hzero : recId 0 = 0 := rfl
  have hsame := ecrecover_of_recId (P := singleIdPrimitives) (v := 0) (w := v) digest
    (FixedBytes.repeated 64 1).len (by rw [hzero]; norm_num) (hv.trans hzero.symm)
  rw [sampleSeal]
  exact hsame.trans (ecrecover_sealOver sampleSigner digest)

theorem verifySealCoinbase_sampleSeal {d : Draft} (h : d.Fits) (hl : d.LaidOut) {v : UInt8}
    (hv : recId v = 0) {hash : Hash} (hhash : hash = singleIdPrimitives.keccak256
      (d.preimage sampleSigner.address (sampleSeal v))) :
    verifySealCoinbase singleIdPrimitives (d.header sampleSigner.address (sampleSeal v) hash)
      d.time = .ok sampleSigner.address := by
  obtain ⟨sealed, hsealed⟩ := Draft.sealPreimage_headerPaying sampleSigner.address h.reads
  exact verifySealCoinbase_of_ecrecover h.bounded (h.laidOutBy hl) h.pays
    (fun sealBytes hash => hsealed sealBytes hash _ (.inl rfl)) (ecrecover_sampleSeal _ v hv) hhash
    le_rfl h.time.2

/-- The hash of the sample header with a recovery byte. -/
def sampleSealHash (v : UInt8) : Hash :=
  singleIdPrimitives.keccak256
    ((blankDraft sealedChainStart).preimage sampleSigner.address (sampleSeal v))

theorem sampleSealHash_ne : sampleSealHash 0 ≠ sampleSealHash 27 := by
  have hrows : singleIdPrimitives.keccak256 = keccakRows := keccak256_eq_keccakRows
  unfold sampleSealHash SecretKey.address
  rw [hrows]
  decide +kernel

theorem sampleSeal_accepted {v : UInt8} (hv : recId v = 0) :
    let d := blankDraft sealedChainStart
    let extraData := hexPrefixed (d.extra (sampleSeal v))
    decodeHex extraData = .ok ((FixedBytes.repeated 32 0).val ++ d.mid ++
        (FixedBytes.repeated 64 1).val ++ [v]) ∧
      verifySealCoinbase singleIdPrimitives
        ((d.header sampleSigner.address (sampleSeal 0) (.repeated 32 0)).resealed extraData
          (hexPrefixed (sampleSealHash v).val)) d.time = .ok sampleSigner.address := by
  intro d extraData
  have hfits : d.Fits := blankDraft_fits (by decide) (by decide)
  have hlaid : d.LaidOut := .inl (by decide)
  refine ⟨?_, verifySealCoinbase_sampleSeal hfits hlaid hv rfl⟩
  rw [decodeHex_hexPrefixed, Draft.extra, sampleSeal, List.append_assoc _ _ [v]]

/-- One signature, two recovery bytes, both accepted, and two hashes. -/
theorem seal_not_unique :
    ∃ (P : Primitives) (header : RpcBlockHeader) (rest : Bytes) (v₁ v₂ : UInt8)
      (extra₁ extra₂ hash₁ hash₂ : String) (now : ℕ) (signer₁ signer₂ : Address),
      DistinctRecovery P ∧
      decodeHex extra₁ = .ok (rest ++ [v₁]) ∧ decodeHex extra₂ = .ok (rest ++ [v₂]) ∧
      verifySealCoinbase P (header.resealed extra₁ hash₁) now = .ok signer₁ ∧
      verifySealCoinbase P (header.resealed extra₂ hash₂) now = .ok signer₂ ∧
      v₁ ≠ v₂ ∧ decodeHexFixed 32 hash₁ ≠ decodeHexFixed 32 hash₂ := by
  obtain ⟨hextra₁, haccepted₁⟩ := sampleSeal_accepted (v := 0) rfl
  obtain ⟨hextra₂, haccepted₂⟩ := sampleSeal_accepted (v := 27) rfl
  refine ⟨_, _, _, 0, 27, _, _, _, _, _, _, _, distinctRecovery_singleId, hextra₁, hextra₂,
    haccepted₁, haccepted₂, by decide, ?_⟩
  rw [decodeHexFixed_hexPrefixed, decodeHexFixed_hexPrefixed]
  exact fun hhash => sampleSealHash_ne (Except.ok.inj hhash)

/-- The bytes 0 and 27 are the two spellings of the first recovery id. -/
theorem seal_spellings_sample : ∃ P : Primitives, DistinctRecovery P ∧
    ∃ (header : RpcBlockHeader) (extra₁ extra₂ hash₁ hash₂ : String) (now : ℕ) (signer : Address),
      verifySealCoinbase P (header.resealed extra₁ hash₁) now = .ok signer ∧
      verifySealCoinbase P (header.resealed extra₂ hash₂) now = .ok signer ∧
      ((0 : UInt8).toNat = (27 : UInt8).toNat ∨ (0 : UInt8).toNat = (27 : UInt8).toNat + 27 ∨
        (27 : UInt8).toNat = (0 : UInt8).toNat + 27) := by
  obtain ⟨hextra₁, haccepted₁⟩ := sampleSeal_accepted (v := 0) rfl
  obtain ⟨hextra₂, haccepted₂⟩ := sampleSeal_accepted (v := 27) rfl
  exact ⟨_, distinctRecovery_singleId, _, _, _, _, _, _, _, haccepted₁, haccepted₂,
    (seal_spellings distinctRecovery_singleId _ _ hextra₁ hextra₂ haccepted₁ haccepted₂).1⟩

end HeliosBsc
