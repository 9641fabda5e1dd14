import ToolCatalog.Proofs.Json.Fields

/-!
# Values from texts can be written again

A text holds only numbers that a text can hold, or marks what it holds as unreadable. So
a free-form value that is read is a proper one: in normal form, with numbers of 64 bits
and finite ones. The proof follows the reader, token by token.
-/

namespace ToolCatalog

theorem Keyed.mem_of_mem_ofList {α : Type} {es : List (String × α)} {e : String × α}
    (h : e ∈ (ofList es).entries) : e ∈ es := by
  rw [mem_entries_iff, ofList, find?_insertAll, find?_empty, Option.or_none] at h
  exact List.mem_reverse.1 (mem_of_lookup h)

namespace Json

theorem proper_arr {xs : List Json} (h : ∀ x ∈ xs, x.Proper) : (arr xs).Proper := by
  refine ⟨spellable_arr.2 fun x hx => (h x hx).spellable, ?_⟩
  rw [normal, normalItems_eq_map]
  exact congrArg arr ((List.map_congr_left fun x hx => (h x hx).normal).trans (List.map_id' xs))

theorem proper_obj {es : List (String × Json)} (h : ∀ e ∈ es, e.2.Proper) :
    (obj (Keyed.ofList es).entries).Proper := by
  have hmem : ∀ e ∈ (Keyed.ofList es).entries, e.2.Proper :=
    fun e he => h e (Keyed.mem_of_mem_ofList he)
  refine ⟨spellable_obj.2 fun e he => (hmem e he).spellable, ?_⟩
  have hentries : normalMembers (Keyed.ofList es).entries = (Keyed.ofList es).entries := by
    rw [normalMembers_eq_map]
    refine (List.map_congr_left fun e he => ?_).trans (List.map_id' _)
    rw [(hmem e he).normal]
  rw [normal, hentries, Keyed.ofList_entries]

mutual

theorem Spellable.proper_normal : (j : Json) → j.Spellable → j.normal.Proper
  | .null, h | .bool _, h | .int _, h | .float _, h | .str _, h => ⟨h, rfl⟩
  | .arr xs, h => proper_arr (proper_normalItems xs h)
  | .obj ms, h => proper_obj (proper_normalMembers ms h)

theorem proper_normalItems : (xs : List Json) → SpellableItems xs → ∀ x ∈ normalItems xs, x.Proper
  | [], _ => List.forall_mem_nil _
  | x :: xs, h => List.forall_mem_cons.2 ⟨h.1.proper_normal x, proper_normalItems xs h.2⟩

theorem proper_normalMembers : (ms : List (String × Json)) → SpellableMembers ms →
    ∀ m ∈ normalMembers ms, m.2.Proper
  | [], _ => List.forall_mem_nil _
  | (_, x) :: ms, h => List.forall_mem_cons.2 ⟨h.1.proper_normal x, proper_normalMembers ms h.2⟩

end

def Sound (j : Json) : Prop := j.readable = true → j.Spellable

theorem sound_unreadable : unreadable.Sound := fun h => h

theorem sound_float (x : Binary64) : (float x).Sound := fun h => h

theorem sound_arr {xs : List Json} (h : ∀ x ∈ xs, x.Sound) : (arr xs).Sound := fun hread =>
  spellable_arr.2 fun x hx => h x hx (readable_of_mem_items hx hread)

theorem sound_obj {ms : List (String × Json)} (h : ∀ m ∈ ms, m.2.Sound) : (obj ms).Sound :=
  fun hread => spellable_obj.2 fun m hm => h m hm (readable_of_mem_members hm hread)

theorem Sound.proper_of_any? {j v : Json} (h : j.Sound) (hv : j.any? = some v) : v.Proper := by
  rw [any?] at hv
  split at hv
  · next hread =>
    obtain rfl := Option.some.inj hv
    exact (h hread).proper_normal j
  · cases hv

namespace Token

def Sound : Token → Prop
  | .scalar j => j.Sound
  | _ => True

variable {r : NumeralReader}

theorem sound_decimal (n : Numeral) : (decimal r n).Sound := by
  rw [decimal]
  cases r n with
  | none => exact sound_unreadable
  | some x => exact sound_float x

theorem sound_wholeNumber (negative : Bool) (ds : List Char) :
    (wholeNumber r negative ds).Sound := by
  have hsize : UInt64.size = 2 ^ 64 := rfl
  rw [wholeNumber]
  generalize ofDigits ds = n
  split
  · split
    · next hn =>
      refine fun _ => ⟨?_, ?_⟩
      · omega
      · omega
    · exact sound_decimal _
  · split
    · next hn => exact fun _ => spellable_nat hn
    · exact sound_decimal _

theorem sound_unsigned? {negative : Bool} {t : List Char} {j : Json}
    (h : unsigned? r negative t = some j) : j.Sound := by
  simp only [unsigned?, Option.bind_eq_bind] at h
  split at h
  · cases h
  · split at h
    · obtain rfl := Option.some.inj h
      exact sound_wholeNumber _ _
    · obtain ⟨_, _, h⟩ := Option.bind_eq_some_iff.1 h
      obtain ⟨_, _, h⟩ := Option.bind_eq_some_iff.1 h
      obtain rfl := Option.some.inj h
      exact sound_decimal _

theorem sound_number? {t : List Char} {j : Json} (h : number? r t = some j) : j.Sound := by
  rw [number?.eq_def] at h
  split at h <;> exact sound_unsigned? h

theorem sound_word? {t r : List Char} {j : Json} (h : word? t = some (j, r)) : j.Sound := by
  rw [word?.eq_def] at h
  split at h
  · obtain ⟨rfl, _⟩ := Prod.mk.inj (Option.some.inj h)
    exact fun _ => trivial
  · obtain ⟨rfl, _⟩ := Prod.mk.inj (Option.some.inj h)
    exact fun _ => trivial
  · obtain ⟨rfl, _⟩ := Prod.mk.inj (Option.some.inj h)
    exact fun _ => trivial
  · cases h

theorem sound_punctuation? {c : Char} {k : Token} (h : punctuation? c = some k) : k.Sound := by
  rw [punctuation?.eq_def] at h
  split at h <;> first | (obtain rfl := Option.some.inj h; trivial) | cases h

theorem sound_next? {c : Char} {t u : List Char} {k : Token} (h : next? r c t = some (k, u)) :
    k.Sound := by
  rw [next?] at h
  split at h
  · next hp =>
    obtain ⟨rfl, _⟩ := Prod.mk.inj (Option.some.inj h)
    exact sound_punctuation? hp
  · split at h
    · obtain ⟨⟨s, u⟩, _, hs⟩ := Option.map_eq_some_iff.1 h
      obtain ⟨rfl, _⟩ := Prod.mk.inj hs
      trivial
    · split at h
      · obtain ⟨j, hj, hs⟩ := Option.map_eq_some_iff.1 h
        obtain ⟨rfl, _⟩ := Prod.mk.inj hs
        exact sound_number? hj
      · obtain ⟨⟨j, u⟩, hj, hs⟩ := Option.map_eq_some_iff.1 h
        obtain ⟨rfl, _⟩ := Prod.mk.inj hs
        exact sound_word? hj

theorem sound_ofChars? {t : List Char} {ts : List Token} (h : ofChars? r t = some ts) :
    ∀ k ∈ ts, k.Sound := by
  fun_induction ofChars? r t generalizing ts with
  | case1 =>
    obtain rfl := Option.some.inj h
    exact List.forall_mem_nil _
  | case2 c t _ ih => exact ih h
  | case3 => cases h
  | case4 c t _ k u hnext _ ih =>
    obtain ⟨us, hus, rfl⟩ := Option.map_eq_some_iff.1 h
    exact List.forall_mem_cons.2 ⟨sound_next? hnext, ih hus⟩

end Token

namespace Reader

def BegunSound (before : Begun) : Prop := ∀ ms ∈ before, ∀ m ∈ ms, m.2.Sound

def HoleSound : Hole → Prop
  | .item before => ∀ x ∈ before, x.Sound
  | .member before _ => BegunSound before

def StageSound : Stage → Prop
  | .key before | .colon before _ => BegunSound before
  | .after j => j.Sound
  | _ => True

structure Sound (s : Reader) : Prop where
  holes : ∀ hole ∈ s.holes, HoleSound hole
  stage : StageSound s.stage

theorem sound_enter {holes : List Hole} (hholes : ∀ hole ∈ holes, HoleSound hole) {k : Token}
    (hk : k.Sound) {s : Reader} (h : enter holes k = some s) : s.Sound := by
  cases k with
  | scalar j =>
    obtain rfl := Option.some.inj h
    exact ⟨hholes, hk⟩
  | text t =>
    obtain rfl := Option.some.inj h
    refine ⟨hholes, ?_⟩
    cases t with
    | none => exact sound_unreadable
    | some t => exact fun _ => trivial
  | openBracket =>
    obtain rfl := Option.some.inj h
    exact ⟨List.forall_mem_cons.2 ⟨List.forall_mem_nil _, hholes⟩, trivial⟩
  | openBrace =>
    obtain rfl := Option.some.inj h
    exact ⟨hholes, trivial⟩
  | closeBracket | closeBrace | comma | colon => cases h

theorem sound_close {holes : List Hole} (hholes : ∀ hole ∈ holes, HoleSound hole)
    {container : Option Json} (h : ∀ j ∈ container, j.Sound) : (close holes container).Sound := by
  refine ⟨hholes, ?_⟩
  rw [close]
  simp only [StageSound]
  split
  · cases container with
    | none => exact sound_unreadable
    | some j => exact h j rfl
  · exact sound_unreadable

theorem begunSound_addMember {before : Begun} (h : BegunSound before) (key : Option String)
    {j : Json} (hj : j.Sound) : BegunSound (addMember before key j) := by
  rintro ms hms
  obtain ⟨k, _, hms⟩ := Option.bind_eq_some_iff.1 hms
  obtain ⟨ms', hms', rfl⟩ := Option.map_eq_some_iff.1 hms
  exact List.forall_mem_cons.2 ⟨hj, h ms' hms'⟩

theorem sound_leave {j : Json} (hj : j.Sound) {holes : List Hole}
    (hholes : ∀ hole ∈ holes, HoleSound hole) {k : Token} {s : Reader}
    (h : leave j holes k = some s) : s.Sound := by
  rw [leave.eq_def] at h
  split at h
  · obtain rfl := Option.some.inj h
    rw [List.forall_mem_cons] at hholes
    exact ⟨List.forall_mem_cons.2 ⟨List.forall_mem_cons.2 ⟨hj, hholes.1⟩, hholes.2⟩, trivial⟩
  · obtain rfl := Option.some.inj h
    rw [List.forall_mem_cons] at hholes
    refine sound_close hholes.2 ?_
    rintro _ ⟨⟩
    refine sound_arr fun x hx => ?_
    exact List.forall_mem_cons.2 ⟨hj, hholes.1⟩ x (List.mem_reverse.1 hx)
  · obtain rfl := Option.some.inj h
    rw [List.forall_mem_cons] at hholes
    exact ⟨hholes.2, begunSound_addMember hholes.1 _ hj⟩
  · obtain rfl := Option.some.inj h
    rw [List.forall_mem_cons] at hholes
    refine sound_close hholes.2 fun x hx => ?_
    obtain ⟨ms, hms, rfl⟩ := Option.map_eq_some_iff.1 hx
    refine sound_obj fun m hm => ?_
    exact begunSound_addMember hholes.1 _ hj ms hms m (List.mem_reverse.1 hm)
  · cases h

theorem Sound.step {s s' : Reader} {k : Token} (hs : s.Sound) (hk : k.Sound)
    (h : s.step k = some s') : s'.Sound := by
  obtain ⟨holes, stage⟩ := s
  obtain ⟨hholes, hstage⟩ := hs
  rw [Reader.step.eq_def] at h
  simp only at h
  split at h
  · exact sound_enter hholes hk h
  · obtain rfl := Option.some.inj h
    refine sound_close (fun hole hmem => hholes hole (List.mem_of_mem_tail hmem)) ?_
    rintro _ ⟨⟩
    exact sound_arr (List.forall_mem_nil _)
  · exact sound_enter hholes hk h
  · obtain rfl := Option.some.inj h
    refine sound_close hholes ?_
    rintro _ ⟨⟩
    exact sound_obj (List.forall_mem_nil _)
  · obtain rfl := Option.some.inj h
    refine ⟨hholes, ?_⟩
    rintro _ ⟨⟩
    exact List.forall_mem_nil _
  · obtain rfl := Option.some.inj h
    exact ⟨hholes, hstage⟩
  · obtain rfl := Option.some.inj h
    exact ⟨List.forall_mem_cons.2 ⟨hstage, hholes⟩, trivial⟩
  · exact sound_leave hstage hholes h
  · cases h

theorem Sound.run {s s' : Reader} {ks : List Token} (hs : s.Sound) (hks : ∀ k ∈ ks, k.Sound)
    (h : s.run ks = some s') : s'.Sound := by
  induction ks generalizing s with
  | nil =>
    obtain rfl := Option.some.inj h
    exact hs
  | cons k ks ih =>
    rw [List.forall_mem_cons] at hks
    obtain ⟨next, hnext, h⟩ := Option.bind_eq_some_iff.1 h
    exact ih (hs.step hks.1 hnext) hks.2 h

end Reader

theorem sound_ofText? {s : String} {j : Json} (h : ofText? s = some j) : j.Sound := by
  obtain ⟨ks, hks, h⟩ := Option.bind_eq_some_iff.1 h
  obtain ⟨r, hr, h⟩ := Option.bind_eq_some_iff.1 h
  have hstart : Reader.start.Sound := ⟨List.forall_mem_nil _, trivial⟩
  have hsound := hstart.run (Token.sound_ofChars? hks) hr
  rw [Reader.result?.eq_def] at h
  split at h
  · obtain rfl := Option.some.inj h
    exact hsound.stage
  · cases h

theorem proper_of_ofText? {s : String} {v : Json} (h : (ofText? s).bind any? = some v) :
    v.Proper := by
  obtain ⟨j, hj, hv⟩ := Option.bind_eq_some_iff.1 h
  exact (sound_ofText? hj).proper_of_any? hv

end Json

end ToolCatalog
