import YangBinding.Codec.Basic
import YangBinding.Proofs.Registry.Sole
import YangBinding.Proofs.Wire.Forms

/-!
# Documents through the JSON codec

A document whose resource id leads to a schema node, or to the root, is always written. Reading the
bytes gives the same document, whatever its strings and values are and however it was laid out, up to
the nesting that a reader allows; beyond it the bytes are refused as malformed, so that the codec
writes documents that it cannot read. The data nodes do not have to follow the schema for this, but
no two siblings may have the same key, since reading inserts them one after the other.

## Main results

* `Codec.documentOfBytes?_jsonText` — what is read from the text of a document
* `Codec.jsonTree_decode_encode` — the codec's round trip
-/

namespace YangBinding

open YangBinding.Tree (CompositeData Node)

variable {reg : Registry} {document : CompositeData}

namespace Codec

theorem ofBytes?_jsonText (pretty : Bool) (document : CompositeData) :
    Json.ofBytes? (jsonText pretty document).toUTF8 = some (Wire.compositeData document) := by
  have hplain := Wire.plain_compositeData document
  cases pretty with
  | false => exact hplain.ofBytes?_write none
  | true => exact hplain.ofBytes?_write (some 0)

/-- The text of a document denotes the document, unless it nests too deep. -/
theorem documentOfBytes?_jsonText (hinserted : ∀ n ∈ document.data.nodes, n.Inserted) (pretty : Bool) :
    documentOfBytes? (jsonText pretty document).toUTF8 =
      if (Wire.compositeData document).nesting ≤ Json.nestingLimit then some document else none := by
  rw [documentOfBytes?, ofBytes?_jsonText]
  exact Wire.reads_compositeData hinserted Json.nestingLimit

/-- What the codec writes it reads back, in either layout, exactly if its arrays and objects nest at
most 127 deep. -/
theorem jsonTree_decode_encode (document : CompositeData)
    (hid : ∃ target, reg.resolve document.data.id = .ok target)
    (hinserted : ∀ n ∈ document.data.nodes, n.Inserted) (pretty : Bool) :
    ∃ encoded, jsonTree.encode reg pretty document = .ok encoded ∧
      Json.ofBytes? encoded.bytes = some (Wire.compositeData document) ∧
        ∀ pretty', jsonTree.decode reg pretty' encoded =
          if (Wire.compositeData document).nesting ≤ 127 then .ok document else .error .json := by
  obtain ⟨target, hid⟩ := hid
  refine ⟨⟨some document.data.id.text, (jsonText pretty document).toUTF8⟩, ?_,
    ofBytes?_jsonText pretty document, fun _ => ?_⟩
  · change encodeJson reg pretty document = _
    rw [encodeJson, hid]
    rfl
  · change decodeJson reg _ = _
    rw [decodeJson, documentOfBytes?_jsonText hinserted pretty, Json.nestingLimit]
    by_cases hnesting : (Wire.compositeData document).nesting ≤ 127
    · rw [if_pos hnesting, if_pos hnesting]
      simp only [hid]
      rfl
    · rw [if_neg hnesting, if_neg hnesting]

end Codec

/-! ### Crates in the store

Each crate holds the next one, and adds three levels: its variant, its record and its children. -/

namespace Registry.Shop

/-- A crate with a number of crates in it, one within the other. -/
def crate : Nat → Node
  | 0 => .inner { id := { name := "crate" } } .singleNode []
  | n + 1 => .inner { id := { name := "crate" } } .singleNode [crate n]

theorem inserted_crate (n : Nat) : (crate n).Inserted := by
  induction n with
  | zero => exact Node.inserted_inner_iff.2 ⟨List.nodup_nil, List.forall_mem_nil _⟩
  | succ n ih =>
    exact Node.inserted_inner_iff.2 ⟨List.nodup_singleton _, List.forall_mem_singleton.2 ih⟩

theorem nesting_crate (n : Nat) : (Wire.dataNode (crate n)).nesting = 3 * n + 4 := by
  induction n with
  | zero => decide
  | succ n ih =>
    rw [crate, Wire.dataNode]
    simp only [Json.nesting, Json.memberNesting, Json.itemNesting, Wire.dataNodes, Wire.nodeKey,
      Wire.schemaId, Wire.optionalMember, Wire.selector, ih]
    omega

/-- The path to the store. -/
def storeId : Tree.ResourceId := ⟨[{ id := ⟨"store", some "urn:shop"⟩ }]⟩

theorem resolve_storeId : ∃ target, registry.resolve storeId = .ok target :=
  Except.isSome_toOption_iff.1 (by decide +kernel)

/-- A delivery of crates for the store. -/
def delivery (n : Nat) : CompositeData where
  data := { id := storeId, nodes := [crate n] }

theorem nesting_delivery (n : Nat) : (Wire.compositeData (delivery n)).nesting = 3 * n + 7 := by
  have hid : (Wire.resourceId storeId).nesting = 3 := by decide
  simp only [delivery, Wire.compositeData, Wire.resourceData, Wire.dataNodes, List.map_nil,
    Json.nesting, Json.memberNesting, Json.itemNesting, nesting_crate, hid]
  omega

/-- A crate with forty crates in it uses up all levels, and one more is too many. -/
theorem decode_delivery :
    (∃ encoded, Codec.jsonTree.encode registry true (delivery 40) = .ok encoded ∧
      Codec.jsonTree.decode registry true encoded = .ok (delivery 40)) ∧
    ∃ encoded, Codec.jsonTree.encode registry true (delivery 41) = .ok encoded ∧
      Codec.jsonTree.decode registry true encoded = .error .json := by
  have hinserted (n : Nat) : ∀ node ∈ (delivery n).data.nodes, node.Inserted :=
    List.forall_mem_singleton.2 (inserted_crate n)
  constructor
  · obtain ⟨encoded, hencode, -, hdecode⟩ :=
      Codec.jsonTree_decode_encode (delivery 40) resolve_storeId (hinserted 40) true
    refine ⟨encoded, hencode, ?_⟩
    rw [hdecode true, nesting_delivery, if_pos (by decide)]
  · obtain ⟨encoded, hencode, -, hdecode⟩ :=
      Codec.jsonTree_decode_encode (delivery 41) resolve_storeId (hinserted 41) true
    refine ⟨encoded, hencode, ?_⟩
    rw [hdecode true, nesting_delivery, if_neg (by decide)]

end Registry.Shop

end YangBinding
