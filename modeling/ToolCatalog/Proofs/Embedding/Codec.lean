import ToolCatalog.Embedding.Store
import ToolCatalog.Proofs.Json.Documents
import ToolCatalog.Proofs.Text.Base64
import ToolCatalog.Storage.Manifest

/-!
# Vectors in documents

The text of a vector gives back its bits, and the document of a store gives back
the store: every phrase, every model, and every vector with the bits it had.
-/

namespace ToolCatalog

theorem Text.trim_eq_self {t : List Char} (h : ∀ c ∈ t, isBlank c = false) : trim t = t := by
  have hdrop : ∀ u : List Char, (∀ c ∈ u, isBlank c = false) → u.dropWhile isBlank = u := by
    intro u hu
    cases u with
    | nil => rfl
    | cons c u => simp [hu c List.mem_cons_self]
  rw [trim, trimStart, hdrop t h, trimEnd, hdrop _ fun c hc => h c (List.mem_reverse.1 hc),
    List.reverse_reverse]

namespace Embedding

theorem loop_append_drop (bytes : ByteArray) (i : Nat) (before : List UInt8) :
    ByteArray.toList.loop bytes i before = before.reverse ++ bytes.data.toList.drop i := by
  fun_induction ByteArray.toList.loop bytes i before with
  | case1 i before hlt ih =>
    have hi : i < bytes.data.toList.length := by simpa using hlt
    have hget : bytes.get! i = bytes.data.toList[i] := by simp [ByteArray.get!, hlt]
    rw [ih, List.drop_eq_getElem_cons hi, hget, List.reverse_cons, List.append_assoc,
      List.singleton_append]
  | case2 i before hge =>
    have hi : bytes.data.toList.length ≤ i := by simpa using hge
    rw [List.drop_eq_nil_of_le hi, List.append_nil]

theorem toNat_ofNat_ascii : ∀ n < 128, (Char.ofNat n).toNat = n := by decide

theorem toList_toUTF8 (bs : List UInt8) (h : ∀ b ∈ bs, b.toNat < 128) :
    (String.ofList (bs.map fun b => Char.ofNat b.toNat)).toUTF8.toList = bs := by
  have hchar : ∀ b ∈ bs, String.utf8EncodeChar (Char.ofNat b.toNat) = [b] := by
    intro b hb
    have hlt := h b hb
    have hval : (Char.ofNat b.toNat).val.toNat = b.toNat := toNat_ofNat_ascii _ hlt
    rw [String.utf8EncodeChar, hval, if_pos (by omega), UInt8.ofNat_toNat]
  have hbytes : (bs.map fun b => Char.ofNat b.toNat).flatMap String.utf8EncodeChar = bs := by
    induction bs with
    | nil => rfl
    | cons b bs ih =>
      rw [List.map_cons, List.flatMap_cons, hchar b List.mem_cons_self,
        ih (fun c hc => h c (.tail _ hc)) fun c hc => hchar c (.tail _ hc)]
      rfl
  rw [String.toUTF8_eq_toByteArray, String.toByteArray_ofList, List.utf8Encode, hbytes,
    ByteArray.toList, loop_append_drop]
  simp

theorem wordOf_wordBytes (w : UInt32) :
    wordOf (UInt8.ofNat (w.toNat % 256)) (UInt8.ofNat (w.toNat / 256 % 256))
      (UInt8.ofNat (w.toNat / 65536 % 256)) (UInt8.ofNat (w.toNat / 16777216)) = w := by
  have hw := w.toNat_lt
  simp only [wordOf, UInt8.toNat_ofNat']
  have hvalue : ((w.toNat / 16777216 % 2 ^ 8 * 256 + w.toNat / 65536 % 256 % 2 ^ 8) * 256 +
      w.toNat / 256 % 256 % 2 ^ 8) * 256 + w.toNat % 256 % 2 ^ 8 = w.toNat := by omega
  rw [hvalue, UInt32.ofNat_toNat]

theorem ofBytes_toBytes (v : Embedding) : ofBytes v.toBytes = .ok v := by
  have hwords : ∀ ws : List UInt32, words (ws.flatMap wordBytes) = ws := by
    intro ws
    induction ws with
    | nil => rfl
    | cons w ws ih =>
      rw [List.flatMap_cons]
      simp only [wordBytes, List.cons_append, List.nil_append, words]
      rw [wordOf_wordBytes, ih]
  rw [ofBytes, length_toBytes, if_pos (by omega), toBytes, hwords]

theorem decode_encode (v : Embedding) : decode v.encode = .ok v := by
  have hrange : ∀ b ∈ Base64.encode v.toBytes, 32 < b.toNat ∧ b.toNat < 127 :=
    fun b => Base64.lt_of_mem_encode
  have hblank : ∀ c ∈ (Base64.encode v.toBytes).map fun b => Char.ofNat b.toNat,
      Text.isBlank c = false := by
    intro c hc
    obtain ⟨b, hb, rfl⟩ := List.mem_map.1 hc
    have hb := hrange b hb
    have hnat := toNat_ofNat_ascii b.toNat (by omega)
    simp only [Text.isBlank, hnat]
    simp
    omega
  rw [decode, encode, String.toList_ofList, Text.trim_eq_self hblank,
    toList_toUTF8 _ fun b hb => by have := hrange b hb; omega, Base64.decode_encode]
  exact ofBytes_toBytes v

theorem ofJson?_toJson (v : Embedding) : ofJson? v.toJson = some v := by
  rw [toJson, ofJson?, decode_encode]
  rfl

end Embedding

theorem Keyed.ofList_entries {α : Type} (m : Keyed α) : ofList m.entries = m :=
  ext_find? fun k => by
    rw [ofList, find?_insertAll, find?_empty, Option.or_none, lookup_reverse m.sorted, find?]

theorem Json.keyed?_ofKeyed {α : Type} {read : Json → Option α} {write : α → Json}
    (h : ∀ a, read (write a) = some a) (m : Keyed α) : keyed? read (ofKeyed write m) = some m := by
  have hentries : ∀ es : List (String × α),
      (es.map fun e => (e.1, write e.2)).mapM (fun m => (read m.2).map (m.1, ·)) = some es := by
    intro es
    induction es with
    | nil => rfl
    | cons e es ih => simp [ih, h]
  rw [keyed?, ofKeyed, entries?, hentries, Option.map_some, Keyed.ofList_entries]

namespace VectorStore

theorem ofJson?_toJson (s : VectorStore) : ofJson? s.toJson = some s := by
  rw [ofJson?, toJson, Json.keyed?_ofKeyed fun m => Json.keyed?_ofKeyed Embedding.ofJson?_toJson m]
  rfl

theorem spellable_toJson (s : VectorStore) : s.toJson.Spellable := by
  rw [toJson, Json.ofKeyed, Json.spellable_obj, List.forall_mem_map]
  intro e _
  rw [Json.ofKeyed, Json.spellable_obj, List.forall_mem_map]
  exact fun _ _ => trivial

/-- There are no numbers in a store. -/
theorem reread_toJson (r : Json.NumeralReader) (s : VectorStore) :
    s.toJson.reread r = s.toJson := by
  rw [toJson, Json.reread_ofKeyed]
  congr 1
  funext vectors
  exact Json.reread_ofKeyed Embedding.toJson vectors

theorem depth_toJson (s : VectorStore) : s.toJson.depth ≤ 2 := by
  have hvectors : ∀ es : List (String × Embedding),
      Json.membersDepth (es.map fun e => (e.1, e.2.toJson)) = 0 := by
    intro es
    induction es with
    | nil => rfl
    | cons e es ih => exact Nat.max_eq_zero_iff.2 ⟨rfl, ih⟩
  have hphrases : ∀ es : List (String × Keyed Embedding),
      Json.membersDepth (es.map fun e => (e.1, Json.ofKeyed Embedding.toJson e.2)) ≤ 1 := by
    intro es
    induction es with
    | nil => exact Nat.zero_le 1
    | cons e es ih =>
      refine Nat.max_le.2 ⟨?_, ih⟩
      simp only [Json.ofKeyed, Json.depth, hvectors, Nat.zero_add, Nat.le_refl]
  exact Nat.add_le_add_right (hphrases s.phrases.entries) 1

theorem read_pretty (s : VectorStore) :
    (Json.ofText? s.toJson.pretty).bind ofJson? = some s := by
  have hdepth : s.toJson.depth ≤ Json.Reader.maxDepth :=
    Nat.le_trans s.depth_toJson (by decide)
  rw [Json.ofText?_pretty s.spellable_toJson (s.reread_toJson _) hdepth, Option.bind_some,
    ofJson?_toJson]

theorem load_of_read {t : FileTree} {path : String} {s : VectorStore}
    (h : t.read path = .text s.toJson.pretty) : load t path = .ok s := by
  simp only [load, FileTree.load, h, s.read_pretty]
  rfl

end VectorStore

end ToolCatalog
