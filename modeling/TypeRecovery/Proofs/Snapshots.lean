import Mathlib.Tactic.MkIffOfInductiveProp
import TypeRecovery.Proofs.Documents
import TypeRecovery.Proofs.Tables
import TypeRecovery.Snapshot.Store

/-!
# Reading snapshots of a database back

What is written as a record, a variant, a list or a table is read back as it was, provided that its
numbers are machine words. Each kind of data has one lemma that says so, assembled from those of
its parts, up to the database as a whole.
-/
namespace TypeRecovery

namespace Json

/-- The value can be printed, and stands for `a` if it nests at most `limit` levels. -/
structure ReadAs {α : Type} (limit : Nat) (decode : Json → Option α) (j : Json) (a : α) :
    Prop where
  written : Written j
  decoded : j.nesting ≤ limit → decode j = some a

theorem nesting_lt_of_mem_items {items : List Json} {j : Json} (h : j ∈ items) :
    j.nesting < (arr items).nesting := by
  rw [nesting]
  induction items with
  | nil => cases h
  | cons x rest ih =>
    rw [nestingItems]
    rcases List.mem_cons.1 h with rfl | h
    · omega
    · have hrest := ih h
      omega

theorem nesting_lt_of_mem_fields {fields : List (String × Json)} {f : String × Json}
    (h : f ∈ fields) : f.2.nesting < (obj fields).nesting := by
  rw [nesting]
  induction fields with
  | nil => cases h
  | cons f' rest ih =>
    obtain ⟨k, j⟩ := f'
    rw [nestingFields]
    rcases List.mem_cons.1 h with rfl | h
    · simp only
      omega
    · have hrest := ih h
      omega

variable {α β : Type} {limit : Nat}

@[simp] theorem written_nat (n : Nat) : Written (nat n) := .int n

@[simp] theorem written_text (s : String) : Written (text s) := .text s

@[simp] theorem written_bool (b : Bool) : Written (bool b) := .bool b

theorem below?_nat {n bound : Nat} (h : n < bound) : (nat n).below? bound = some n := if_pos h

theorem word?_nat {n : Nat} (h : n < Word.bound) : (nat n).word? = some n := below?_nat h

@[simp] theorem str?_text (s : String) : (text s).str? = some s := unspell?_spell s

@[simp] theorem bool?_bool (b : Bool) : (bool b).bool? = some b := rfl

theorem readAs_word {n : Nat} (h : n < Word.bound) : ReadAs limit word? (nat n) n :=
  ⟨written_nat n, fun _ => word?_nat h⟩

theorem readAs_text (s : String) : ReadAs limit str? (text s) s :=
  ⟨written_text s, fun _ => str?_text s⟩

theorem ReadAs.mono {decode : Json → Option α} {j : Json} {a : α} {less : Nat}
    (h : ReadAs limit decode j a) (hle : less ≤ limit) : ReadAs less decode j a :=
  ⟨h.written, fun hnest => h.decoded (Nat.le_trans hnest hle)⟩

theorem mapM_map_eq_some {α β γ : Type} {f : α → β} {g : β → Option γ} {h : α → γ} {l : List α}
    (hfg : ∀ a ∈ l, g (f a) = some (h a)) : (l.map f).mapM g = some (l.map h) := by
  induction l with
  | nil => rfl
  | cons a rest ih =>
    have hrest := ih fun b hb => hfg b (by simp [hb])
    rw [List.map_cons, List.mapM_cons, hfg a (by simp), hrest]
    rfl

theorem ReadAs.of_item {decode : Json → Option α} {items : List Json} {j : Json} {a : α}
    (h : ReadAs limit decode j a) (hnest : (arr items).nesting ≤ limit) (hmem : j ∈ items) :
    decode j = some a :=
  h.decoded (Nat.le_trans (Nat.le_of_lt (nesting_lt_of_mem_items hmem)) hnest)

theorem readAs_list {encode : α → Json} {decode : Json → Option α} {l : List α}
    (h : ∀ a ∈ l, ReadAs limit decode (encode a) a) :
    ReadAs limit (list? decode) (ofList encode l) l where
  written := by
    refine .arr fun j hj => ?_
    obtain ⟨a, ha, rfl⟩ := List.mem_map.1 hj
    exact (h a ha).written
  decoded := by
    intro hnest
    have hitems := mapM_map_eq_some (g := decode) (h := id) fun a ha =>
      (h a ha).of_item hnest (List.mem_map_of_mem ha)
    rwa [List.map_id] at hitems

theorem readAs_pair {first : Json → Option α} {second : Json → Option β} {j k : Json} {a : α}
    {b : β} (hj : ReadAs limit first j a) (hk : ReadAs limit second k b) :
    ReadAs limit (pair? first second) (arr [j, k]) (a, b) where
  written := .arr (by simp [hj.written, hk.written])
  decoded := by
    intro hnest
    simp [pair?, hj.of_item hnest (by simp), hk.of_item hnest (by simp)]

theorem option?_of_ne_null {decode : Json → Option α} {j : Json} (h : j ≠ null) :
    option? decode j = (decode j).map some := by
  cases j with
  | null => exact absurd rfl h
  | _ => rfl

theorem readAs_option {encode : α → Json} {decode : Json → Option α} {o : Option α}
    (hnull : ∀ a, encode a ≠ null) (h : ∀ a ∈ o, ReadAs limit decode (encode a) a) :
    ReadAs limit (option? decode) (ofOption encode o) o := by
  cases o with
  | none => exact ⟨.null, fun _ => rfl⟩
  | some a =>
    obtain ⟨hwritten, hdecoded⟩ := h a rfl
    refine ⟨hwritten, fun hnest => ?_⟩
    rw [ofOption, option?_of_ne_null (hnull a), hdecoded hnest, Option.map_some]

/-- Names that need no escapes, each of them once. -/
def properNames (names : List String) : Bool :=
  names.all (fun name => spell name == name) && decide names.Nodup

theorem spell_of_properNames {names : List String} (h : properNames names = true) :
    ∀ name ∈ names, spell name = name := by
  simp only [properNames, Bool.and_eq_true, List.all_eq_true, beq_iff_eq] at h
  exact h.1

theorem nodup_of_properNames {names : List String} (h : properNames names = true) :
    names.Nodup := by
  simp only [properNames, Bool.and_eq_true, decide_eq_true_eq] at h
  exact h.2

theorem unspell?_of_spell {name : String} (h : spell name = name) : unspell? name = some name := by
  have hname := unspell?_spell name
  rwa [h] at hname

/-- The value of a field. -/
def valueOf (fields : List (String × Json)) (name : String) : Option Json :=
  (fields.find? (·.1 == name)).map (·.2)

theorem single?_of_nodup {fields : List (String × Json)} (h : (fields.map (·.1)).Nodup)
    (name : String) : single? fields name = some (valueOf fields name) := by
  have hoccurrences : occurrences name fields = (valueOf fields name).toList := by
    induction fields with
    | nil => rfl
    | cons f rest ih =>
      obtain ⟨hfirst, hnodup⟩ := List.nodup_cons.1 h
      by_cases heq : f.1 = name
      · have hrest : rest.filter (·.1 == name) = [] := by
          rw [List.filter_eq_nil_iff]
          intro f' hf' hname
          exact hfirst (List.mem_map.2 ⟨f', hf', (beq_iff_eq.1 hname).trans heq.symm⟩)
        simp [occurrences, valueOf, heq, hrest]
      · have hrest := ih hnodup
        unfold occurrences valueOf at hrest ⊢
        simpa [heq] using hrest
  rw [single?, hoccurrences]
  cases valueOf fields name <;> rfl

theorem fields?_obj {fields : List (String × Json)} (hspell : ∀ f ∈ fields, spell f.1 = f.1)
    (hnodup : (fields.map (·.1)).Nodup) (names : List String) :
    fields? names (obj fields) = some (names.map (valueOf fields)) := by
  have hunspell : unspellNames? fields = some fields := by
    have hread := mapM_map_eq_some (f := id) (h := id) (l := fields)
      (g := fun f => (unspell? f.1).map fun name => (name, f.2)) fun f hf => by
        simp [unspell?_of_spell (hspell f hf)]
    rwa [List.map_id] at hread
  have hsingle := mapM_map_eq_some (f := id) (l := names) (g := single? fields) fun name _ =>
    single?_of_nodup hnodup name
  rw [List.map_id] at hsingle
  simp only [fields?, hunspell, Option.bind_eq_bind, Option.bind_some]
  exact hsingle

theorem variantFields?_obj (place : Place) (names : List String) (fields : List (String × Json)) :
    variantFields? place names (obj fields) = fields? names (obj fields) := by
  cases place <;> rfl

@[simp] theorem required_some (decode : Json → Option α) (j : Json) :
    required decode (some j) = decode j := rfl

@[simp] theorem optional_some (default : α) (decode : Json → Option α) (j : Json) :
    Json.optional default decode (some j) = decode j := rfl

@[simp] theorem optional_none (default : α) (decode : Json → Option α) :
    Json.optional default decode none = some default := rfl

theorem ReadAs.of_field {decode : Json → Option α} {fields : List (String × Json)} {j : Json}
    {a : α} (h : ReadAs limit decode j a) (hnest : (obj fields).nesting ≤ limit) (k : String)
    (hmem : (k, j) ∈ fields) : decode j = some a :=
  h.decoded (Nat.le_trans (Nat.le_of_lt (nesting_lt_of_mem_fields hmem)) hnest)

theorem readAs_record {decode : Json → Option α} {a : α} {fields : List (String × Json)}
    (names : List String) (hnames : fields.map (·.1) = names) (hproper : properNames names = true)
    (hvalues : ∀ f ∈ fields, Written f.2)
    (hdecode : (obj fields).nesting ≤ limit →
      (∀ wanted, fields? wanted (obj fields) = some (wanted.map (valueOf fields))) →
      decode (obj fields) = some a) : ReadAs limit decode (obj fields) a := by
  have hspell : ∀ f ∈ fields, spell f.1 = f.1 := fun f hf =>
    spell_of_properNames hproper f.1 (hnames ▸ List.mem_map_of_mem hf)
  have hnodup : (fields.map (·.1)).Nodup := hnames ▸ nodup_of_properNames hproper
  exact ⟨.obj hspell hvalues, fun hnest => hdecode hnest (fields?_obj hspell hnodup)⟩

@[simp] theorem variant?_text (s : String) : variant? (text s) = some (s, none) := by
  simp [variant?, text]

/-- A variant stands for what its contents make up, which nest one level less. -/
theorem readAs_variant {contents : Json → Option β} {decode : Json → Option α} {j : Json} {a : α}
    {b : β} (name : String) (hname : spell name = name) (hj : ReadAs (limit - 1) contents j b)
    (hdecode : 0 < limit → variant? (obj [(name, j)]) = some (name, some j) →
      contents j = some b → decode (obj [(name, j)]) = some a) :
    ReadAs limit decode (obj [(name, j)]) a where
  written := .obj (by simpa using hname) (by simpa using hj.written)
  decoded := by
    intro hnest
    have hlt : j.nesting < (obj [(name, j)]).nesting :=
      nesting_lt_of_mem_fields (f := (name, j)) (by simp)
    exact hdecode (by omega) (by simp [variant?, unspell?_of_spell hname])
      (hj.decoded (by omega))

end Json

open Json

variable {limit : Nat}

theorem StructId.readAs {id : StructId} (h : id.index < Word.bound) :
    ReadAs limit ofJson? id.toJson id where
  written := written_nat _
  decoded _ := by simp [toJson, ofJson?, word?_nat h]

namespace Ty

/-- Every number in the type is a machine word. -/
def OfWords : Ty → Prop
  | unknown => True
  | void => True
  | int size _ => size < Word.bound
  | float size => size < Word.bound
  | pointer t => t.OfWords
  | array t length => t.OfWords ∧ ∀ n ∈ length, n < Word.bound
  | struct id => id.index < Word.bound

instance decidableOfWords : (t : Ty) → Decidable t.OfWords
  | unknown => .isTrue trivial
  | void => .isTrue trivial
  | int size _ => inferInstanceAs (Decidable (size < Word.bound))
  | float size => inferInstanceAs (Decidable (size < Word.bound))
  | pointer t => decidableOfWords t
  | array t length =>
    have := decidableOfWords t
    inferInstanceAs (Decidable (t.OfWords ∧ ∀ n ∈ length, n < Word.bound))
  | struct id => inferInstanceAs (Decidable (id.index < Word.bound))

theorem readAs_int {size : Nat} (h : size < Word.bound) (signed : Bool) :
    ReadAs limit intOfJson? (.obj [("size", .nat size), ("signed", .bool signed)])
      (int size signed) := by
  refine readAs_record ["size", "signed"] rfl (by decide +kernel) (by simp) fun _ hfields => ?_
  rw [intOfJson?, hfields]
  simp [valueOf, word?_nat h]

theorem readAs_float {size : Nat} (h : size < Word.bound) :
    ReadAs limit floatOfJson? (.obj [("size", .nat size)]) (float size) := by
  refine readAs_record ["size"] rfl (by decide +kernel) (by simp) fun _ hfields => ?_
  rw [floatOfJson?, hfields]
  simp [valueOf, word?_nat h]

theorem readAs_array {decode : Json → Option Ty} {j : Json} {t : Ty} {length : Option Nat}
    (hj : ReadAs limit decode j t) (h : ∀ n ∈ length, n < Word.bound) :
    ReadAs limit (arrayOfJson? decode)
      (.obj [("element", j), ("length", Json.ofOption .nat length)]) (array t length) := by
  have hlength : ReadAs limit (option? word?) (Json.ofOption .nat length) length :=
    readAs_option nofun fun n hn => readAs_word (h n hn)
  refine readAs_record ["element", "length"] rfl (by decide +kernel)
    (by simp [hj.written, hlength.written]) fun hnest hfields => ?_
  rw [arrayOfJson?, hfields]
  simp [valueOf, hj.of_field hnest "element" (by simp),
    hlength.of_field hnest "length" (by simp)]

theorem readAs_within {t : Ty} (h : t.OfWords) (levels : Nat) :
    ReadAs levels (ofJsonWithin? (levels + 1)) t.toJson t := by
  induction t generalizing levels with
  | unknown => exact ⟨.text _, fun _ => by simp [toJson, ofJsonWithin?]⟩
  | void => exact ⟨.text _, fun _ => by simp [toJson, ofJsonWithin?]⟩
  | int size signed =>
    refine readAs_variant "int" (by decide +kernel) (readAs_int h signed) fun _ hname hj => ?_
    simp [ofJsonWithin?, hname, ofVariant?, hj]
  | float size =>
    refine readAs_variant "float" (by decide +kernel) (readAs_float h) fun _ hname hj => ?_
    simp [ofJsonWithin?, hname, ofVariant?, hj]
  | pointer t ih =>
    refine readAs_variant "pointer" (by decide +kernel) (ih h (levels - 1)) fun hpos hname hj => ?_
    rw [Nat.sub_add_cancel hpos] at hj
    simp [ofJsonWithin?, hname, ofVariant?, hj]
  | array t length ih =>
    refine readAs_variant "array" (by decide +kernel) (readAs_array (ih h.1 (levels - 1)) h.2)
      fun hpos hname hj => ?_
    rw [Nat.sub_add_cancel hpos] at hj
    simp [ofJsonWithin?, hname, ofVariant?, hj]
  | struct id =>
    refine readAs_variant "struct" (by decide +kernel) (StructId.readAs h) fun _ hname hj => ?_
    simp [ofJsonWithin?, hname, ofVariant?, hj]

theorem readAs {t : Ty} (h : t.OfWords) : ReadAs maxNesting ofJson? t.toJson t :=
  readAs_within h maxNesting

end Ty

namespace Variable

/-- Every number in the variable is a machine word. -/
def OfWords : Variable → Prop
  | .local function slot => function < Word.bound ∧ slot < Word.bound
  | .global address => address < Word.bound

instance : DecidablePred OfWords
  | .local function slot =>
    inferInstanceAs (Decidable (function < Word.bound ∧ slot < Word.bound))
  | .global address => inferInstanceAs (Decidable (address < Word.bound))

theorem readAs_local {function slot : Nat} (place : Place) (hfunction : function < Word.bound)
    (hslot : slot < Word.bound) : ReadAs limit (localOfJson? place)
      (.obj [("function", .nat function), ("slot", .nat slot)]) (.local function slot) := by
  refine readAs_record ["function", "slot"] rfl (by decide +kernel) (by simp) fun _ hfields => ?_
  rw [localOfJson?, variantFields?_obj, hfields]
  simp [valueOf, word?_nat hfunction, word?_nat hslot]

theorem readAs {var : Variable} (place : Place) (h : var.OfWords) :
    ReadAs limit (ofJson? place) var.toJson var := by
  cases var with
  | «local» function slot =>
    refine readAs_variant "local" (by decide +kernel) (readAs_local place h.1 h.2)
      fun _ hname hj => ?_
    simp [ofJson?, hname, hj]
  | global address =>
    refine readAs_variant "global" (by decide +kernel) (readAs_word h) fun _ hname hj => ?_
    simp [ofJson?, hname, hj]

end Variable

namespace Member

/-- Every number in the member is a machine word. -/
@[mk_iff]
structure OfWords (m : Member) : Prop where
  offset : m.offset < Word.bound
  type : m.type.OfWords
  size : m.size < Word.bound

instance : DecidablePred OfWords := fun m => decidable_of_iff _ (ofWords_iff m).symm

theorem readAs {m : Member} (h : m.OfWords) : ReadAs maxNesting ofJson? m.toJson m := by
  obtain ⟨offset, name, type, size, comment⟩ := m
  have htype := Ty.readAs h.type
  cases comment with
  | none =>
    refine readAs_record ["offset", "name", "member_type", "size"] rfl (by decide +kernel)
      (by simp [htype.written]) fun hnest hfields => ?_
    rw [ofJson?, hfields]
    simp [valueOf, word?_nat h.offset, word?_nat h.size,
      htype.of_field hnest "member_type" (by simp)]
  | some comment =>
    refine readAs_record ["offset", "name", "member_type", "size", "comment"] rfl
      (by decide +kernel) (by simp [htype.written]) fun hnest hfields => ?_
    have hcomment : option? str? (.text comment) = some (some comment) := by
      rw [option?_of_ne_null (j := .text comment) nofun, str?_text, Option.map_some]
    rw [ofJson?, hfields]
    simp [valueOf, word?_nat h.offset, word?_nat h.size, hcomment,
      htype.of_field hnest "member_type" (by simp)]

end Member

namespace Layout

/-- Every number in the layout is a machine word. -/
@[mk_iff]
structure OfWords (l : Layout) : Prop where
  id : l.id.index < Word.bound
  members : ∀ e ∈ l.members.entries, e.1 < Word.bound ∧ e.2.OfWords
  size : l.size < Word.bound

instance : DecidablePred OfWords := fun l => decidable_of_iff _ (ofWords_iff l).symm

theorem escape_digit {c : Char} (h : c.isDigit = true) : escape c = [c] := by
  have hne : ∀ x : Char, x.isDigit = false → c ≠ x := by
    rintro x hx rfl
    simp [h] at hx
  have hplain : ¬ c.toNat < 32 := by
    simp only [Char.isDigit, ge_iff_le, Bool.and_eq_true, decide_eq_true_eq] at h
    have hle : 48 ≤ c.toNat := h.1
    omega
  simp [escape, hplain, hne '"' rfl, hne '\\' rfl, hne '\n' rfl, hne '\r' rfl, hne '\t' rfl,
    hne '\x08' rfl, hne '\x0c' rfl]

/-- A decimal numeral needs no escapes. -/
theorem spell_decimal (n : Nat) : spell (Numeral.decimal n) = Numeral.decimal n := by
  have hescape : ∀ cs : List Char, (∀ c ∈ cs, c.isDigit = true) → cs.flatMap escape = cs := by
    intro cs hcs
    induction cs with
    | nil => rfl
    | cons c rest ih =>
      have hrest := ih fun c' hc' => hcs c' (by simp [hc'])
      rw [List.flatMap_cons, escape_digit (hcs c (by simp)), hrest, List.singleton_append]
  have hdigits := hescape (Nat.toDigits 10 n) fun _ => Numeral.isDigit_of_mem_toDigits
  simp [spell, Numeral.decimal, hdigits]

/-- Members are found by their offsets, as decimal numerals. -/
theorem readAs_members {t : Table Nat Member}
    (h : ∀ e ∈ t.entries, e.1 < Word.bound ∧ e.2.OfWords) :
    ReadAs maxNesting (wordMap? Member.ofJson?)
      (.obj (t.entries.map fun e => (Numeral.decimal e.1, e.2.toJson))) t.entries where
  written := by
    refine .obj ?_ ?_
    · intro f hf
      obtain ⟨e, _, rfl⟩ := List.mem_map.1 hf
      exact spell_decimal e.1
    · intro f hf
      obtain ⟨e, he, rfl⟩ := List.mem_map.1 hf
      exact (Member.readAs (h e he).2).written
  decoded := by
    intro hnest
    have hkey : ∀ e ∈ t.entries,
        (Numeral.canonical? (Numeral.decimal e.1).toList).filter (· < Word.bound) = some e.1 := by
      intro e he
      simp [Numeral.decimal, Numeral.canonical?_toDigits, Option.filter, (h e he).1]
    have hmember : ∀ e ∈ t.entries, Member.ofJson? e.2.toJson = some e.2 := fun e he =>
      (Member.readAs (h e he).2).of_field hnest (Numeral.decimal e.1)
        (List.mem_map.2 ⟨e, he, rfl⟩)
    have hentries := mapM_map_eq_some (h := fun e : Nat × Member => e) (l := t.entries)
      (f := fun e => (Numeral.decimal e.1, e.2.toJson))
      (g := fun f => do
        let key ← (Numeral.canonical? f.1.toList).filter (· < Word.bound)
        return (key, ← Member.ofJson? f.2)) fun e he => by
          simp [hkey e he, hmember e he]
    rw [List.map_id'] at hentries
    exact hentries

theorem readAs {l : Layout} (h : l.OfWords) : ReadAs maxNesting ofJson? l.toJson l := by
  have hid : ReadAs maxNesting StructId.ofJson? l.id.toJson l.id := StructId.readAs h.id
  have hmembers := readAs_members h.members
  refine readAs_record ["id", "name", "members", "size"] rfl (by decide +kernel)
    (by simp [hid.written, hmembers.written]) fun hnest hfields => ?_
  have htable : Table.ofList l.members.entries = l.members := Table.merge_empty l.members
  rw [ofJson?, hfields]
  simp [valueOf, hid.of_field hnest "id" (by simp), hmembers.of_field hnest "members" (by simp),
    word?_nat h.size, htable]

end Layout

/-- A table is read back entry by entry. -/
theorem Table.readAs {κ α : Type} [Key κ] {key : κ → Json} {key? : Json → Option κ}
    {value : α → Json} {value? : Json → Option α} {t : Table κ α}
    (hkeys : ∀ e ∈ t.entries, ReadAs limit key? (key e.1) e.1)
    (hvalues : ∀ e ∈ t.entries, ReadAs limit value? (value e.2) e.2) :
    ReadAs limit (Table.ofJson? key? value?) (t.toJson key value) t := by
  have hentries : ReadAs limit (list? (pair? key? value?)) (t.toJson key value) t.entries :=
    readAs_list fun e he => readAs_pair (hkeys e he) (hvalues e he)
  refine ⟨hentries.written, fun hnest => ?_⟩
  have htable : Table.ofList t.entries = t := Table.merge_empty t
  rw [Table.ofJson?, hentries.decoded hnest, Option.map_some, htable]

theorem MemberRef.readAs {r : MemberRef} (hstruct : r.struct.index < Word.bound)
    (hoffset : r.offset < Word.bound) : ReadAs limit ofJson? r.toJson r := by
  have hpair : ReadAs limit (pair? StructId.ofJson? word?) r.toJson (r.struct, r.offset) :=
    readAs_pair (StructId.readAs hstruct) (readAs_word hoffset)
  refine ⟨hpair.written, fun hnest => ?_⟩
  rw [ofJson?, hpair.decoded hnest, Option.map_some]

namespace TargetTable

/-- Every number in the table is a machine word, and its version one of 32 bits. -/
@[mk_iff]
structure OfWords (t : TargetTable) : Prop where
  version : t.version < versionBound
  targets : ∀ e ∈ t.targets.entries, e.1.struct.index < Word.bound ∧ e.1.offset < Word.bound ∧
    e.2 < Word.bound

instance : DecidablePred OfWords := fun t => decidable_of_iff _ (ofWords_iff t).symm

theorem readAs {t : TargetTable} (h : t.OfWords) : ReadAs limit ofJson? t.toJson t := by
  have htargets : ReadAs limit (Table.ofJson? MemberRef.ofJson? word?)
      (t.targets.toJson MemberRef.toJson .nat) t.targets :=
    Table.readAs (fun e he => MemberRef.readAs (h.targets e he).1 (h.targets e he).2.1)
      fun e he => readAs_word (h.targets e he).2.2
  refine readAs_record ["version", "targets"] rfl (by decide +kernel) (by simp [htargets.written])
    fun hnest hfields => ?_
  rw [ofJson?, hfields]
  simp [valueOf, below?_nat h.version, htargets.of_field hnest "targets" (by simp)]

end TargetTable

namespace Database

/-- Every number in the database is a machine word. -/
@[mk_iff]
structure OfWords (db : Database) : Prop where
  pointerSize : db.pointerSize < Word.bound
  structs : ∀ e ∈ db.structs.entries, e.1.index < Word.bound ∧ e.2.OfWords
  declared : ∀ e ∈ db.declared.entries, e.1.OfWords ∧ e.2.OfWords
  callTargets : db.callTargets.OfWords
  nextId : db.nextId < Word.bound

instance : DecidablePred OfWords := fun db => decidable_of_iff _ (ofWords_iff db).symm

theorem readAs_arch {size : Nat} (h : size < Word.bound) :
    ReadAs limit archOfJson? (.obj [("pointer_size", .nat size)]) size := by
  refine readAs_record ["pointer_size"] rfl (by decide +kernel) (by simp) fun _ hfields => ?_
  rw [archOfJson?, hfields]
  simp [valueOf, word?_nat h]

theorem readAs {db : Database} (h : db.OfWords) : ReadAs maxNesting ofJson? db.toJson db := by
  have harch : ReadAs maxNesting archOfJson? (.obj [("pointer_size", .nat db.pointerSize)])
      db.pointerSize := readAs_arch h.pointerSize
  have hstructs : ReadAs maxNesting (Table.ofJson? StructId.ofJson? Layout.ofJson?)
      (db.structs.toJson StructId.toJson Layout.toJson) db.structs :=
    Table.readAs (fun e he => StructId.readAs (h.structs e he).1)
      fun e he => Layout.readAs (h.structs e he).2
  have hdeclared : ReadAs maxNesting (Table.ofJson? (Variable.ofJson? .document) Ty.ofJson?)
      (db.declared.toJson Variable.toJson Ty.toJson) db.declared :=
    Table.readAs (fun e he => Variable.readAs .document (h.declared e he).1)
      fun e he => Ty.readAs (h.declared e he).2
  have htargets : ReadAs maxNesting TargetTable.ofJson? db.callTargets.toJson db.callTargets :=
    TargetTable.readAs h.callTargets
  refine readAs_record ["arch", "structs", "declared", "call_targets", "next_id"] rfl
    (by decide +kernel)
    (by simp [harch.written, hstructs.written, hdeclared.written, htargets.written])
    fun hnest hfields => ?_
  rw [ofJson?, hfields]
  simp [valueOf, harch.of_field hnest "arch" (by simp),
    hstructs.of_field hnest "structs" (by simp), hdeclared.of_field hnest "declared" (by simp),
    htargets.of_field hnest "call_targets" (by simp), word?_nat h.nextId]

/-- A database that was written is read back as it was, whatever is in it, as long as its document
nests no deeper than a document may. -/
theorem database_reads_back (db : Database) (hwords : db.OfWords)
    (hnest : db.toJson.nesting ≤ maxNesting) : parse? db.render = some db := by
  have hread := readAs hwords
  rw [parse?, render, parse?_pretty hread.written hnest, Option.bind_some]
  exact hread.decoded hnest

/-- A layout that is stored under another id, with a text that needs escapes, and a table of call
targets in an unusual version. -/
def uncommon : Database where
  pointerSize := 4
  structs := .ofList [(⟨3⟩,
    { id := ⟨2⟩, name := "a \"b\"\n", size := 18446744073709551615
      members := .ofList [
        (8, { offset := 8, name := "", type := .pointer (.struct ⟨2⟩), size := 4 }),
        (0, { offset := 1, name := "\x01é", type := .float 8, size := 0,
              comment := some "\\" })] })]
  declared := .ofList [(.global 4096, .array (.int 2 true) none),
    (.local 4096 1, .array .void (some 0))]
  callTargets := { version := 7, targets := .ofList [(⟨⟨9⟩, 16⟩, 8192)] }
  nextId := 1

theorem uncommon_reads_back : uncommon.OfWords ∧ uncommon.toJson.nesting ≤ maxNesting ∧
    parse? uncommon.render = some uncommon :=
  ⟨by decide +kernel, by decide +kernel,
    database_reads_back uncommon (by decide +kernel) (by decide +kernel)⟩

end Database

end TypeRecovery
