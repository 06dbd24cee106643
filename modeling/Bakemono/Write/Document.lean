import Bakemono.Read.Object
import Bakemono.Write.Writer

namespace Bakemono

open CacheReader (header payload metadata Fragment)

-- The version of a writer is spread over two fields of a header.
theorem version_split (v : UInt64) :
    (v >>> 32).toUInt32.toUInt64 <<< 32 ||| v.toUInt32.toUInt64 = v := by
  apply UInt64.toNat.inj
  have hv := v.toNat_lt
  have h₁ : ((v >>> 32).toUInt32.toUInt64 <<< 32).toNat = (v.toNat / 2 ^ 32) <<< 32 := by
    simp [Nat.shiftLeft_eq, Nat.shiftRight_eq_div_pow]
    omega
  have h₂ : v.toUInt32.toUInt64.toNat = v.toNat % 2 ^ 32 := by simp
  rw [UInt64.toNat_or, h₁, h₂, ← Nat.shiftLeft_add_eq_or_of_lt (Nat.mod_lt _ (by decide)),
    Nat.shiftLeft_eq]
  omega

namespace CacheWriter

variable {H : Hash} {key : Bytes} {version : UInt64} {index total : Nat} {data info : Bytes}

theorem header_document : header (document H key version total index data info) =
    documentHeader H key version total index data info := by
  have hl := Doc.length_marshal (documentHeader H key version total index data info)
  rw [header, document, ← hl, List.take_left]
  have := Doc.unmarshal_marshal (documentHeader H key version total index data info) []
  rwa [List.append_nil] at this

theorem length_document : (document H key version total index data info).length =
    DocHeaderSize + info.length + data.length := by
  simp [document, Doc.length_marshal, Nat.add_assoc]

-- The document fits into its own length fields.
structure Fitting (data info : Bytes) : Prop where
  len  : DocHeaderSize + info.length + data.length ≤ AggBufferSize
  data : data.length ≤ TargetFragmentSize

theorem Fitting.toNat (h : Fitting data info) :
    (UInt32.ofNat (DocHeaderSize + info.length + data.length)).toNat =
      DocHeaderSize + info.length + data.length ∧
    (UInt32.ofNat info.length).toNat = info.length := by
  have := h.len
  simp only [AggBufferSize] at this
  rw [UInt32.toNat_ofNat', UInt32.toNat_ofNat']
  omega

theorem fragment_document (h : Fitting data info) :
    Fragment H key index version (document H key version total index data info) := by
  have ⟨h₁, h₂⟩ := h.toNat
  have hlen : (documentHeader H key version total index data info).len.toNat =
      DocHeaderSize + info.length + data.length := h₁
  have hhlen : (documentHeader H key version total index data info).hlen.toNat = info.length := h₂
  constructor
  case valid =>
    rw [header_document, Doc.validate_eq_ok]
    refine ⟨⟨rfl, rfl, rfl, rfl⟩, ⟨hlen.trans_le h.len, ?_, ?_, ?_⟩, ?_⟩
    case refine_1 => rw [hlen, length_document]
    case refine_2 => omega
    case refine_3 =>
      rw [Doc.dataLen_toNat (by omega)]
      have := h.data
      omega
    case refine_4 =>
      have hd : (document H key version total index data info).drop DocHeaderSize = info ++ data := by
        rw [document, List.drop_left' (Doc.length_marshal _)]
      rw [hd]
      rfl
  case identity => rw [header_document]; rfl
  case firstKey => rw [header_document]; rfl
  case version  => rw [header_document]; exact version_split version
  case length   => rw [header_document, length_document, hlen]

-- A document that fits into its own length field has the data that it was made of.
theorem payload_document
    (h : Fragment H key index version (document H key version total index data info)) :
    payload (document H key version total index data info) = data := by
  have hl : DocHeaderSize + info.length + data.length =
      (UInt32.ofNat (DocHeaderSize + info.length + data.length)).toNat := by
    have := h.length
    rwa [length_document, header_document] at this
  have hh : (UInt32.ofNat info.length).toNat = info.length := by
    rw [UInt32.toNat_ofNat'] at hl ⊢
    omega
  have hm := Doc.length_marshal (documentHeader H key version total index data info)
  rw [payload, header_document]
  change List.drop (DocHeaderSize + (UInt32.ofNat info.length).toNat) _ = data
  rw [hh, document, ← List.append_assoc]
  exact List.drop_left' (by rw [List.length_append, hm])

theorem metadata_document (h : Fitting data info) :
    metadata (document H key version total index data info) = info := by
  have hm := Doc.length_marshal (documentHeader H key version total index data info)
  rw [metadata, header_document]
  change Bytes.slice _ DocHeaderSize (UInt32.ofNat info.length).toNat = info
  rw [h.toNat.2, document, Bytes.slice, List.drop_left' hm, List.take_left]

end CacheWriter
end Bakemono
