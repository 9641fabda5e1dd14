import ToolCatalog.Proofs.Embedding.Codec
import ToolCatalog.Proofs.Storage.Rewrites
import ToolCatalog.Proofs.Text.Canonical

/-!
# Vectors and their texts

A text is read as a vector exactly if, without the blanks around it, it is the text of
a vector, and then of the vector it is read as. A text that is canonical but not of
whole words has a length that is no vector's; any other text is no text of bytes. In
the file of a store each vector stands as its text, so the store is read back, and a
file of texts by phrase and model is read as a store if each of them is the text of a
vector.
-/

namespace ToolCatalog

namespace Embedding

theorem toList_inj {a b : ByteArray} (h : a.toList = b.toList) : a = b := by
  rw [ByteArray.toList, ByteArray.toList, loop_append_drop, loop_append_drop] at h
  exact ByteArray.ext (Array.toList_inj.1 (by simpa using h))

theorem base64_eq_ok_iff {t : List Char} {bs : List UInt8} :
    Base64.decode (String.ofList t).toUTF8.toList = .ok bs ↔ Base64.text bs = t := by
  have hbytes : (String.ofList (Base64.text bs)).toUTF8.toList = Base64.encode bs := by
    apply toList_toUTF8
    intro b hb
    have hb := Base64.lt_of_mem_encode hb
    omega
  rw [Base64.decode_eq_ok_iff, ← hbytes]
  constructor
  · intro h
    have hutf8 := toList_inj h
    rw [String.toUTF8_eq_toByteArray, String.toUTF8_eq_toByteArray] at hutf8
    exact String.ofList_inj.1 (String.toByteArray_inj.1 hutf8)
  · rintro rfl
    rfl

theorem wordBytes_wordOf (a b c d : UInt8) : wordBytes (wordOf a b c d) = [a, b, c, d] := by
  have ha := a.toNat_lt
  have hb := b.toNat_lt
  have hc := c.toNat_lt
  have hd := d.toNat_lt
  rw [wordOf, wordBytes]
  generalize hn : ((d.toNat * 256 + c.toNat) * 256 + b.toNat) * 256 + a.toNat = n
  have hsize : (UInt32.ofNat n).toNat = n := by
    rw [UInt32.toNat_ofNat', Nat.mod_eq_of_lt (by omega)]
  have h₁ : n % 256 = a.toNat := by omega
  have h₂ : n / 256 % 256 = b.toNat := by omega
  have h₃ : n / 65536 % 256 = c.toNat := by omega
  have h₄ : n / 16777216 = d.toNat := by omega
  simp only [hsize, h₁, h₂, h₃, h₄, UInt8.ofNat_toNat]

theorem flatMap_words (bs : List UInt8) (h : bs.length % 4 = 0) :
    (words bs).flatMap wordBytes = bs := by
  fun_induction words bs with
  | case1 a b c d t ih =>
    simp only [List.length_cons] at h
    rw [List.flatMap_cons, wordBytes_wordOf, ih (by omega)]
    rfl
  | case2 bs hfew =>
    match bs with
    | [] => rfl
    | [_] | [_, _] | [_, _, _] => exact absurd h (by simp)
    | a :: b :: c :: d :: t => exact absurd rfl (hfew a b c d t)

theorem ofBytes_eq_ok_iff {bs : List UInt8} {v : Embedding} :
    ofBytes bs = .ok v ↔ v.toBytes = bs := by
  constructor
  · intro h
    rw [ofBytes] at h
    split at h
    · next hwhole =>
      obtain rfl := Except.ok.inj h
      exact flatMap_words bs hwhole
    · cases h
  · rintro rfl
    exact ofBytes_toBytes v

theorem ofBytes_eq_error_iff {bs : List UInt8} {e : EmbeddingError} :
    ofBytes bs = .error e ↔ bs.length % 4 ≠ 0 ∧ e = .length bs.length := by
  rw [ofBytes]
  split
  · next hwhole => simp [hwhole]
  · next hwhole => simp [hwhole, eq_comm]

theorem decode_cases (t : String) :
    (∃ f, (∀ bs, Base64.text bs ≠ Text.trim t.toList) ∧ decode t = .error (.blob f)) ∨
      ∃ bs, Base64.text bs = Text.trim t.toList ∧ decode t = ofBytes bs := by
  cases h : Base64.decode (String.ofList (Text.trim t.toList)).toUTF8.toList with
  | error f =>
    refine .inl ⟨f, fun bs hbs => ?_, by rw [decode, h]⟩
    rw [base64_eq_ok_iff.2 hbs] at h
    cases h
  | ok bs => exact .inr ⟨bs, base64_eq_ok_iff.1 h, by rw [decode, h]⟩

theorem encode_of_decode {t : String} {v : Embedding} (h : decode t = .ok v) :
    v.encode = String.ofList (Text.trim t.toList) := by
  rcases decode_cases t with ⟨f, _, hf⟩ | ⟨bs, hbs, hdecode⟩
  · rw [hf] at h
    cases h
  · rw [hdecode, ofBytes_eq_ok_iff] at h
    rw [← hbs, ← h]
    rfl

theorem decode_eq_length_iff {t : String} {n : Nat} :
    decode t = .error (.length n) ↔
      Base64.Canonical (Text.trim t.toList) n ∧ n % 4 ≠ 0 := by
  rw [Base64.canonical_iff]
  rcases decode_cases t with ⟨f, hnone, hf⟩ | ⟨bs, hbs, hdecode⟩
  · rw [hf]
    exact ⟨nofun, fun ⟨⟨bs, _, hbs⟩, _⟩ => absurd hbs (hnone bs)⟩
  · rw [hdecode, ofBytes_eq_error_iff]
    constructor
    · rintro ⟨hpartial, hn⟩
      obtain rfl := EmbeddingError.length.inj hn
      exact ⟨⟨bs, rfl, hbs⟩, hpartial⟩
    · rintro ⟨⟨bs', rfl, hbs'⟩, hpartial⟩
      -- the text determines the bytes
      have hsame := base64_eq_ok_iff.2 (hbs'.trans hbs.symm)
      rw [base64_eq_ok_iff.2 rfl] at hsame
      obtain rfl := Except.ok.inj hsame
      exact ⟨hpartial, rfl⟩

theorem decode_eq_blob_iff {t : String} :
    (∃ f, decode t = .error (.blob f)) ↔ ¬∃ n, Base64.Canonical (Text.trim t.toList) n := by
  simp only [Base64.canonical_iff]
  rcases decode_cases t with ⟨f, hnone, hf⟩ | ⟨bs, hbs, hdecode⟩
  · exact ⟨fun _ ⟨_, bs, _, hbs⟩ => hnone bs hbs, fun _ => ⟨f, hf⟩⟩
  · constructor
    · rintro ⟨f, hf⟩
      rw [hdecode, ofBytes_eq_error_iff] at hf
      cases hf.2
    · intro hno
      exact absurd ⟨bs.length, bs, rfl, hbs⟩ hno

theorem ofJson?_str_eq_some_iff {t : String} {v : Embedding} :
    ofJson? (.str t) = some v ↔ decode t = .ok v := by
  rw [ofJson?]
  cases decode t <;> simp [Except.toOption]

end Embedding

theorem Json.entries?_isSome_iff {α : Type} {read : Json → Option α} {ms : Json.Members} :
    (∃ es, entries? read (.obj ms) = some es) ↔ ∀ m ∈ ms, ∃ a, read m.2 = some a := by
  induction ms with
  | nil => simp [entries?]
  | cons m ms ih =>
    rw [List.forall_mem_cons, ← ih]
    simp only [entries?, List.mapM_cons]
    cases read m.2 <;> cases ms.mapM fun m => (read m.2).map (m.1, ·) <;> simp

theorem Json.keyed?_isSome_iff {α : Type} {read : Json → Option α} {ms : Json.Members} :
    (∃ m, keyed? read (.obj ms) = some m) ↔ ∀ m ∈ ms, ∃ a, read m.2 = some a := by
  rw [← entries?_isSome_iff]
  simp [keyed?]

namespace FileTree

theorem at?_of_save {t : FileTree} {path : String} {j : Json}
    (h : (t.save path j).outcome = .ok ()) :
    ∃ p, target? path = some p ∧ (t.save path j).files.at? p = some (.text j.pretty) := by
  obtain ⟨p, name, hroom⟩ := room_of_save h
  refine ⟨p ++ [name], ?_, ?_⟩
  · simp only [target?, hroom.fileName, Option.map_some, makeDir_place hroom.parent]
  · rw [hroom.save j]
    exact at?_put_self _ _ (isOutside_of_at?_ne hroom.file)

end FileTree

namespace VectorStore

def document (phrases : List (String × List (String × String))) : Json :=
  .obj (phrases.map fun p => (p.1, .obj (p.2.map fun m => (m.1, .str m.2))))

theorem ofJson?_document_isSome_iff {phrases : List (String × List (String × String))} :
    (∃ s, ofJson? (document phrases) = some s) ↔
      ∀ p ∈ phrases, ∀ m ∈ p.2, ∃ v, Embedding.decode m.2 = .ok v := by
  have hstore : ∀ j, (∃ s, ofJson? j = some s) ↔
      ∃ m, Json.keyed? (Json.keyed? Embedding.ofJson?) j = some m := by
    intro j
    rw [ofJson?]
    simp
  rw [hstore, document, Json.keyed?_isSome_iff, List.forall_mem_map]
  simp only [Json.keyed?_isSome_iff, List.forall_mem_map, Embedding.ofJson?_str_eq_some_iff]

theorem load_document_iff {t : FileTree} {path text : String}
    {phrases : List (String × List (String × String))} (hread : t.read path = .text text)
    (htext : Json.ofText? text = some (document phrases)) :
    (∃ s, load t path = .ok s) ↔
      ∀ p ∈ phrases, ∀ m ∈ p.2, ∃ v, Embedding.decode m.2 = .ok v := by
  rw [← ofJson?_document_isSome_iff]
  simp only [load, FileTree.load, hread, htext, Option.bind_some]
  cases ofJson? (document phrases) <;> simp [Except.map]

theorem load_save {t : FileTree} {path : String} {s : VectorStore}
    (h : (s.save t path).outcome = .ok ()) {p : Place} (hplace : FileTree.target? path = some p)
    {other : String} (hreach : (s.save t path).files.reach other = .place p) :
    load (s.save t path).files other = .ok s := by
  obtain ⟨p', hplace', hat⟩ := FileTree.at?_of_save h
  obtain rfl := Option.some.inj (hplace.symm.trans hplace')
  exact load_of_read (FileTree.read_eq_text_iff.2 ⟨p, hreach, hat⟩)

end VectorStore

open VectorStore in
/-- Vectors and texts determine each other, alone and in the file of a store. A store that was
written is loaded by every path that leads to its place, and by the path it was written to if
that one ends in a name and can be opened. -/
theorem Embedding.codec_exact :
    (∀ v : Embedding, decode v.encode = .ok v) ∧
      (∀ t v, decode t = .ok v → v.encode = String.ofList (Text.trim t.toList)) ∧
      (∀ t n, decode t = .error (.length n) ↔
        Base64.Canonical (Text.trim t.toList) n ∧ n % 4 ≠ 0) ∧
      (∀ t, (∃ f, decode t = .error (.blob f)) ↔
        ¬∃ n, Base64.Canonical (Text.trim t.toList) n) ∧
      (∀ t path (s : VectorStore), (s.save t path).outcome = .ok () →
        (∀ p other, FileTree.target? path = some p → (s.save t path).files.reach other = .place p →
          load (s.save t path).files other = .ok s) ∧
        (Path.endsInName path = true → Path.isUsable path = true →
          load (s.save t path).files path = .ok s)) ∧
      (∀ t path text phrases, FileTree.read t path = .text text →
        Json.ofText? text = some (document phrases) →
        ((∃ s, load t path = .ok s) ↔
          ∀ p ∈ phrases, ∀ m ∈ p.2, ∃ v, decode m.2 = .ok v)) := by
  refine ⟨decode_encode, fun t v => encode_of_decode, fun t n => decode_eq_length_iff,
    fun t => decode_eq_blob_iff, fun t path s hsaved => ⟨?_, ?_⟩, fun t path text phrases => ?_⟩
  · intro p other hplace hreach
    exact load_save hsaved hplace hreach
  · intro hname husable
    exact load_of_read (FileTree.read_save hsaved hname husable)
  · exact load_document_iff

def zeroStore : VectorStore := VectorStore.insert {} "rainy day" "m" ⟨[0x80000000]⟩

theorem Embedding.codec_exact_of_zeroStore :
    encode ⟨[0x80000000]⟩ = "AAAAgA==" ∧
      (let saved := zeroStore.save {} ".cache/vectors.json"
      VectorStore.load saved.files ".cache/vectors.json" = .ok zeroStore ∧
        VectorStore.load saved.files "./.cache/../.cache/vectors.json" = .ok zeroStore) ∧
      ∃ t : FileTree, ¬∃ s, VectorStore.load t "a.json" = .ok s := by
  obtain ⟨_, hencode, hlength, _, hsave, hdocument⟩ := Embedding.codec_exact
  have hdecode : decode " AAAAgA==\n" = .ok ⟨[0x80000000]⟩ := by
    have hbytes : Base64.text [0, 0, 0, 0x80] = Text.trim " AAAAgA==\n".toList := by decide
    rw [decode, base64_eq_ok_iff.2 hbytes]
    rfl
  have hsaved : (zeroStore.save {} ".cache/vectors.json").outcome = .ok () := by decide
  obtain ⟨hother, hself⟩ := hsave {} ".cache/vectors.json" zeroStore hsaved
  refine ⟨hencode " AAAAgA==\n" _ hdecode, ⟨hself (by decide) (by decide),
    hother [".cache", "vectors.json"] _ (by decide) (by decide)⟩, ?_⟩
  let phrases := [("rainy day", [("m", "AAAA")])]
  let j := VectorStore.document phrases
  have htext : Json.ofText? j.pretty = some j :=
    Json.ofText?_pretty ⟨⟨trivial, trivial⟩, trivial⟩ rfl (by decide)
  refine ⟨⟨[(["a.json"], .text j.pretty)]⟩, ?_⟩
  rw [hdocument _ _ _ phrases (by rfl) htext]
  intro hall
  obtain ⟨v, hv⟩ := hall _ List.mem_cons_self _ List.mem_cons_self
  rw [(hlength "AAAA" 3).2 ⟨.group 0 0 0 0 .nil, by decide⟩] at hv
  cases hv

end ToolCatalog
