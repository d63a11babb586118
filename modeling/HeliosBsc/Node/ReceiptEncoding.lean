import HeliosBsc.Execution.ListBinding
import HeliosBsc.Execution.SigningBounds
import HeliosBsc.Node.GetLogs

/-!
# The encoding of a receipt

The encoding that is bound to `receiptsRoot` is that of a tree of items, which is read back, and a
type byte that no list starts with. So one encoding has one receipt.
-/

namespace HeliosBsc

open Checked BigEndian

/-- The items that `encode_log` encodes. -/
def logRlp (log : ConsensusLog) : Rlp :=
  .list [.bytes log.address.val, .list (log.topics.map fun t => .bytes t.val), .bytes log.data]

/-- The items that `encode_consensus_receipt` encodes. -/
def receiptRlp (r : ConsensusReceipt) : Rlp :=
  .list [.bytes (strip (BigEndian.bytes 8 r.status)),
    .bytes (strip (BigEndian.bytes 8 r.cumulativeGasUsed)), .bytes r.logsBloom.val,
    .list (r.logs.map logRlp)]

theorem encodeRlp_logRlp (log : ConsensusLog) : encodeRlp (logRlp log) = encodeLog log := by
  have htopics : (log.topics.map fun t => Rlp.bytes t.val).map encodeRlp =
      log.topics.map fun t => encodeBytes t.val := by
    rw [List.map_map]
    exact List.map_congr_left fun t _ => by rw [Function.comp_apply, encodeRlp]
  rw [logRlp, encodeRlp_list, encodeLog]
  simp only [List.map_cons, List.map_nil, encodeRlp_list, htopics]
  rw [encodeRlp, encodeRlp]

theorem encodeRlp_receiptRlp (r : ConsensusReceipt) :
    encodeRlp (receiptRlp r) = encodeList [encodeUint r.status, encodeUint r.cumulativeGasUsed,
      encodeBytes r.logsBloom.val, encodeList (r.logs.map encodeLog)] := by
  have hlogs : (r.logs.map logRlp).map encodeRlp = r.logs.map encodeLog := by
    rw [List.map_map]
    exact List.map_congr_left fun log _ => encodeRlp_logRlp log
  rw [receiptRlp, encodeRlp_list, encodeUint_eq, encodeUint_eq]
  simp only [List.map_cons, List.map_nil, encodeRlp_list, hlogs]
  rw [encodeRlp, encodeRlp, encodeRlp]

theorem logRlp_injective {a b : ConsensusLog} (h : logRlp a = logRlp b) : a = b := by
  simp only [logRlp, Rlp.list.injEq, List.cons.injEq, Rlp.bytes.injEq, and_true] at h
  obtain ⟨haddress, htopics, hdata⟩ := h
  have ht : a.topics = b.topics := by
    refine List.map_injective_iff.mpr (fun x y hxy => ?_) htopics
    exact FixedBytes.ext (Rlp.bytes.inj hxy)
  cases a
  cases b
  simp only [ConsensusLog.mk.injEq]
  exact ⟨FixedBytes.ext haddress, ht, hdata⟩

/-- What the reader of receipts accepts. -/
structure ConsensusReceipt.Readable (r : ConsensusReceipt) : Prop where
  status : r.status ≤ 1
  gas : r.cumulativeGasUsed < u64Size
  txType : r.txType ≤ 4
  count : r.logs.length ≤ maxReceiptLogs
  limits : ∀ log ∈ r.logs, log.WithinLimits

theorem length_encodeLog_le {log : ConsensusLog} (h : log.WithinLimits) :
    (encodeLog log).length ≤ 65800 := by
  obtain ⟨htopics, hdata⟩ := h
  have haddress := length_encodeBytes_le log.address.val
  have hbytes := length_encodeBytes_le log.data
  have hlist := length_encodeList_le (log.topics.map fun t => encodeBytes t.val)
  have hflat : (log.topics.map fun t => encodeBytes t.val).flatten.length ≤
      (log.topics.map fun t => encodeBytes t.val).length * 41 := by
    refine length_flatten_le fun x hx => ?_
    obtain ⟨t, -, rfl⟩ := List.mem_map.mp hx
    have ht := length_encodeBytes_le t.val
    rw [t.len] at ht
    exact ht
  have hall := length_encodeList_le [encodeBytes log.address.val,
    encodeList (log.topics.map fun t => encodeBytes t.val), encodeBytes log.data]
  rw [List.length_map] at hflat
  rw [log.address.len] at haddress
  simp only [List.flatten_cons, List.flatten_nil, List.append_nil, List.length_append] at hall
  unfold maxLogTopics at htopics
  unfold maxLogData at hdata
  unfold encodeLog
  omega

theorem length_receiptRlp_lt {r : ConsensusReceipt} (h : r.Readable) :
    (encodeRlp (receiptRlp r)).length < isizeMax := by
  have hstatus := length_encodeBytes_le (strip (BigEndian.bytes 8 r.status))
  have hgas := length_encodeBytes_le (strip (BigEndian.bytes 8 r.cumulativeGasUsed))
  have hstatus' := length_strip_bytes_le r.status
  have hgas' := length_strip_bytes_le r.cumulativeGasUsed
  have hbloom := length_encodeBytes_le r.logsBloom.val
  have hlist := length_encodeList_le (r.logs.map encodeLog)
  have hflat : (r.logs.map encodeLog).flatten.length ≤ (r.logs.map encodeLog).length * 65800 := by
    refine length_flatten_le fun x hx => ?_
    obtain ⟨log, hlog, rfl⟩ := List.mem_map.mp hx
    exact length_encodeLog_le (h.limits log hlog)
  have hall := length_encodeList_le [encodeUint r.status, encodeUint r.cumulativeGasUsed,
    encodeBytes r.logsBloom.val, encodeList (r.logs.map encodeLog)]
  have hcount := h.count
  rw [List.length_map] at hflat
  rw [r.logsBloom.len] at hbloom
  simp only [List.flatten_cons, List.flatten_nil, List.append_nil, List.length_append,
    encodeUint_eq] at hall
  unfold maxReceiptLogs at hcount
  rw [encodeRlp_receiptRlp, encodeUint_eq, encodeUint_eq]
  unfold isizeMax
  omega

theorem depth_receiptRlp_le (r : ConsensusReceipt) : (receiptRlp r).depth ≤ maxRlpDepth := by
  have hbytes : ∀ b : Bytes, (Rlp.bytes b).depth = 0 := fun b => by rw [Rlp.depth]
  have hlog : ∀ log, (logRlp log).depth ≤ 2 := by
    intro log
    have htopics : ((log.topics.map fun t => Rlp.bytes t.val).map Rlp.depth).foldr max 0 ≤ 0 := by
      refine foldr_max_le fun n hn => ?_
      simp only [List.map_map, List.mem_map, Function.comp_apply, hbytes] at hn
      obtain ⟨-, -, rfl⟩ := hn
      exact le_rfl
    simp only [logRlp, Rlp.depth_list, List.map_cons, List.map_nil, List.foldr_cons, List.foldr_nil,
      hbytes]
    omega
  have hlogs : ((r.logs.map logRlp).map Rlp.depth).foldr max 0 ≤ 2 := by
    refine foldr_max_le fun n hn => ?_
    obtain ⟨x, hx, rfl⟩ := List.mem_map.mp hn
    obtain ⟨log, -, rfl⟩ := List.mem_map.mp hx
    exact hlog log
  simp only [receiptRlp, Rlp.depth_list, List.map_cons, List.map_nil, List.foldr_cons,
    List.foldr_nil, hbytes]
  unfold maxRlpDepth
  omega

theorem decode_receiptRlp {r : ConsensusReceipt} (h : (encodeRlp (receiptRlp r)).length < u64Size) :
    decode (encodeRlp (receiptRlp r)) = .ok (receiptRlp r) :=
  decode_encodeRlp h (depth_receiptRlp_le r)

theorem receiptRlp_injective {r s : ConsensusReceipt} (hr : r.status < u64Size)
    (hs : s.status < u64Size) (hrgas : r.cumulativeGasUsed < u64Size)
    (hsgas : s.cumulativeGasUsed < u64Size) (htype : r.txType = s.txType)
    (h : receiptRlp r = receiptRlp s) : r = s := by
  simp only [receiptRlp, Rlp.list.injEq, List.cons.injEq, Rlp.bytes.injEq, and_true] at h
  obtain ⟨hstatus, hgas, hbloom, hlogs⟩ := h
  rw [u64Size_eq_pow] at hr hs hrgas hsgas
  have hstatus : r.status = s.status := strip_bytes_injective hr hs hstatus
  have hgas : r.cumulativeGasUsed = s.cumulativeGasUsed := strip_bytes_injective hrgas hsgas hgas
  have hlogs : r.logs = s.logs :=
    List.map_injective_iff.mpr (fun _ _ => logRlp_injective) hlogs
  cases r
  cases s
  simp only [ConsensusReceipt.mk.injEq]
  exact ⟨hstatus, hgas, FixedBytes.ext hbloom, hlogs, htype⟩

/-- The first byte of a list is not a transaction type. -/
theorem encodeList_head (items : List Bytes) :
    ∃ p rest, encodeList items = p :: rest ∧ 0xc0 ≤ p.toNat := by
  have hlen := length_lenBe_le items.flatten.length
  unfold encodeList
  simp only
  split
  · refine ⟨_, _, rfl, ?_⟩
    rw [toNat_ofNat_of_lt (by omega)]
    omega
  · refine ⟨_, _, rfl, ?_⟩
    rw [toNat_ofNat_of_lt (by omega)]
    omega

theorem encodeConsensusReceipt_eq_ok {r : ConsensusReceipt} {raw : Bytes}
    (h : encodeConsensusReceipt r = .ok raw) :
    r.txType ≤ 4 ∧ r.status ≤ 1 ∧ raw = if r.txType = 0 then encodeRlp (receiptRlp r)
      else UInt8.ofNat r.txType :: encodeRlp (receiptRlp r) := by
  simp only [encodeConsensusReceipt, bind_eq_ok, require_eq_ok, exists_const, pure_eq_ok,
    Except.ok.injEq] at h
  obtain ⟨htype, hstatus, -, -, rfl⟩ := h
  exact ⟨htype, hstatus, by rw [encodeRlp_receiptRlp]⟩

theorem encodeConsensusReceipt_of_readable {r : ConsensusReceipt} (h : r.Readable) :
    encodeConsensusReceipt r = .ok (if r.txType = 0 then encodeRlp (receiptRlp r)
      else UInt8.ofNat r.txType :: encodeRlp (receiptRlp r)) := by
  have htopics : (r.logs.all fun log => decide (log.topics.length ≤ maxLogTopics)) = true :=
    List.all_eq_true.mpr fun log hlog => decide_eq_true (h.limits log hlog).1
  rw [encodeConsensusReceipt, require_of h.txType, ok_bind, require_of h.status, ok_bind,
    require_of h.count, ok_bind, require_of htopics, ok_bind, encodeRlp_receiptRlp, pure_eq_ok]

theorem length_encodeConsensusReceipt_le {c : ConsensusReceipt} {raw : Bytes} (hc : c.Readable)
    (h : encodeConsensusReceipt c = .ok raw) : raw.length ≤ isizeMax := by
  have hlength := length_receiptRlp_lt hc
  rw [(encodeConsensusReceipt_eq_ok h).2.2]
  split
  · exact hlength.le
  · rw [List.length_cons]
    exact hlength

theorem receiptRlp_head (r : ConsensusReceipt) :
    ∃ p rest, encodeRlp (receiptRlp r) = p :: rest ∧ 0xc0 ≤ p.toNat := by
  rw [encodeRlp_receiptRlp]
  exact encodeList_head _

/-- One encoding has one type byte, and one list of encoded fields after it. -/
theorem typeByte_eq {r s : ConsensusReceipt} {raw : Bytes} (hr : encodeConsensusReceipt r = .ok raw)
    (hs : encodeConsensusReceipt s = .ok raw) :
    r.txType = s.txType ∧ encodeRlp (receiptRlp r) = encodeRlp (receiptRlp s) := by
  obtain ⟨hrtype, -, hraw⟩ := encodeConsensusReceipt_eq_ok hr
  obtain ⟨hstype, -, hraw'⟩ := encodeConsensusReceipt_eq_ok hs
  have hsame := hraw.symm.trans hraw'
  have hbyte : ∀ {t : ℕ}, t ≤ 4 → (UInt8.ofNat t).toNat = t :=
    fun ht => toNat_ofNat_of_lt (by omega)
  split_ifs at hsame with hr0 hs0 hs0
  · exact ⟨hr0.trans hs0.symm, hsame⟩
  · obtain ⟨p, rest, hp, hle⟩ := receiptRlp_head r
    rw [hp] at hsame
    have hfirst := congrArg UInt8.toNat (List.cons.inj hsame).1
    rw [hbyte hstype] at hfirst
    omega
  · obtain ⟨p, rest, hp, hle⟩ := receiptRlp_head s
    rw [hp] at hsame
    have hfirst := congrArg UInt8.toNat (List.cons.inj hsame).1
    rw [hbyte hrtype] at hfirst
    omega
  · obtain ⟨hfirst, hrest⟩ := List.cons.inj hsame
    have hfirst := congrArg UInt8.toNat hfirst
    rw [hbyte hrtype, hbyte hstype] at hfirst
    exact ⟨hfirst, hrest⟩

theorem receipt_eq_of_encode_eq {r s : ConsensusReceipt} (hr : r.cumulativeGasUsed < u64Size)
    (hs : s.cumulativeGasUsed < u64Size) {raw : Bytes} (hlen : raw.length < u64Size)
    (hraw : encodeConsensusReceipt r = .ok raw) (hraw' : encodeConsensusReceipt s = .ok raw) :
    r = s := by
  obtain ⟨htype, hfields⟩ := typeByte_eq hraw hraw'
  obtain ⟨-, hrstatus, hrlen⟩ := encodeConsensusReceipt_eq_ok hraw
  obtain ⟨-, hsstatus, -⟩ := encodeConsensusReceipt_eq_ok hraw'
  have hfits : (encodeRlp (receiptRlp r)).length < u64Size := by
    refine lt_of_le_of_lt ?_ hlen
    rw [hrlen]
    split
    · exact le_rfl
    · exact Nat.le_succ _
  have hone : 1 < u64Size := by rw [u64Size_eq]; norm_num
  have hread := decode_receiptRlp hfits
  rw [hfields, decode_receiptRlp (hfields ▸ hfits)] at hread
  exact receiptRlp_injective (hrstatus.trans_lt hone) (hsstatus.trans_lt hone) hr hs htype
    (Except.ok.inj hread).symm

/-- Receipts that were read have one encoding only if they are one receipt. -/
theorem consensus_eq_of_encode_eq {r s : ConsensusReceipt} (hr : r.Readable) (hs : s.Readable)
    {raw : Bytes} (hraw : encodeConsensusReceipt r = .ok raw)
    (hraw' : encodeConsensusReceipt s = .ok raw) : r = s := by
  have hlen := length_encodeConsensusReceipt_le hr hraw
  exact receipt_eq_of_encode_eq hr.gas hs.gas (lt_u64Size_of_le_isizeMax hlen) hraw hraw'

theorem readable_sampleReceipt (txType : ℕ) (h : txType ≤ 4) :
    ConsensusReceipt.Readable { sampleReceipt with txType } where
  status := by
    show 1 ≤ 1
    decide
  gas := u64Size_pos
  txType := h
  count := by
    show 2 ≤ 1024
    decide
  limits := by
    have hsample : ∀ contract, (sampleLog contract).WithinLimits := fun _ =>
      ⟨Nat.zero_le _, Nat.zero_le _⟩
    exact List.forall_mem_cons.mpr ⟨hsample 1, List.forall_mem_singleton.mpr (hsample 2)⟩

/-- A receipt's encoding, which is a `Vec<u8>`, determines the receipt, its type included. -/
theorem encodeConsensusReceipt_injective {a b : ConsensusReceipt}
    (ha : a.cumulativeGasUsed < u64Size) (hb : b.cumulativeGasUsed < u64Size) {x y : ByteVec}
    (hx : encodeConsensusReceipt a = .ok x.val) (hy : encodeConsensusReceipt b = .ok y.val) :
    (x = y → a = b) ∧ (a.txType = 0 → b.txType ≠ 0 → x ≠ y) := by
  have heq : x = y → a = b := by
    rintro rfl
    exact receipt_eq_of_encode_eq ha hb (lt_u64Size_of_le_isizeMax x.bound) hx hy
  refine ⟨heq, ?_⟩
  rintro hlegacy htyped hxy
  rw [heq hxy] at hlegacy
  exact htyped hlegacy

theorem encodeConsensusReceipt_injective_sample :
    ∃ x y : ByteVec, encodeConsensusReceipt sampleReceipt = .ok x.val ∧
      encodeConsensusReceipt { sampleReceipt with txType := 2 } = .ok y.val ∧ x ≠ y := by
  have hlegacy := readable_sampleReceipt 0 (by decide)
  have htyped := readable_sampleReceipt 2 (by decide)
  have hx := encodeConsensusReceipt_of_readable hlegacy
  have hy := encodeConsensusReceipt_of_readable htyped
  refine ⟨⟨_, length_encodeConsensusReceipt_le hlegacy hx⟩,
    ⟨_, length_encodeConsensusReceipt_le htyped hy⟩, hx, hy, ?_⟩
  exact (encodeConsensusReceipt_injective u64Size_pos u64Size_pos hx hy).2 rfl (by decide)

end HeliosBsc
