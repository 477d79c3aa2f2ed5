/-!
# Sorted tables

A `Table` is a finite map kept as a list of entries in strictly increasing key order. The order is
part of the type, so equal contents are equal tables (`Table.ext_get?`), and listing a table
always lists it by key. A `KeySet` is a table of keys alone.
-/
namespace TypeRecovery

/-- A strict linear order with a decidable comparison. -/
class Key (κ : Type) where
  lt : κ → κ → Bool
  irrefl : ∀ a, lt a a = false
  trans : ∀ {a b c}, lt a b = true → lt b c = true → lt a c = true
  tri : ∀ {a b}, lt a b = false → lt b a = false → a = b

namespace Key

theorem asymm {κ : Type} [Key κ] {a b : κ} (h : lt a b = true) : lt b a = false := by
  cases hb : lt b a with
  | false => rfl
  | true => exact absurd (trans h hb) (by simp [irrefl])

theorem ne_of_lt {κ : Type} [Key κ] {a b : κ} (h : lt a b = true) : a ≠ b := by
  rintro rfl
  simp [irrefl] at h

instance : Key Nat where
  lt a b := Nat.blt a b
  irrefl a := by cases h : Nat.blt a a <;> simp_all
  trans h h' := by simp only [Nat.blt_eq] at *; omega
  tri {a b} h h' := by
    have ha : ¬ a < b := by rw [← Nat.blt_eq]; simp [h]
    have hb : ¬ b < a := by rw [← Nat.blt_eq]; simp [h']
    omega

/-- Pairs are ordered by their first parts, and by their second parts where those agree. -/
instance {κ ι : Type} [Key κ] [Key ι] : Key (κ × ι) where
  lt a b := lt a.1 b.1 || (!lt b.1 a.1 && lt a.2 b.2)
  irrefl a := by simp [irrefl]
  trans {a b c} h h' := by
    obtain ⟨a₁, a₂⟩ := a
    obtain ⟨b₁, b₂⟩ := b
    obtain ⟨c₁, c₂⟩ := c
    simp only [Bool.or_eq_true, Bool.and_eq_true, Bool.not_eq_true'] at *
    cases hab : lt a₁ b₁ with
    | true =>
      cases hbc : lt b₁ c₁ with
      | true => exact .inl (trans hab hbc)
      | false =>
        rw [hbc] at h'
        have heq : b₁ = c₁ := tri hbc (by simpa using h'.elim (by simp) (·.1))
        exact .inl (heq ▸ hab)
    | false =>
      rw [hab] at h
      have hba : lt b₁ a₁ = false := h.elim (by simp) (·.1)
      have h₂ : lt a₂ b₂ = true := h.elim (by simp) (·.2)
      have heq : a₁ = b₁ := tri hab hba
      subst heq
      exact h'.imp id fun h => ⟨h.1, trans h₂ h.2⟩
  tri {a b} h h' := by
    obtain ⟨a₁, a₂⟩ := a
    obtain ⟨b₁, b₂⟩ := b
    simp only [Bool.or_eq_false_iff] at *
    have heq : a₁ = b₁ := tri h.1 h'.1
    subst heq
    simp only [irrefl, Bool.not_false, Bool.true_and, true_and] at h h'
    rw [tri h h']

/-- Keys that are told apart by a value of another key type are ordered by it. -/
@[reducible] def comap {κ ι : Type} [Key ι] (f : κ → ι) (inj : ∀ {a b}, f a = f b → a = b) :
    Key κ where
  lt a b := lt (f a) (f b)
  irrefl a := irrefl (f a)
  trans h h' := trans h h'
  tri h h' := inj (tri h h')

end Key

structure Table (κ α : Type) [Key κ] where
  entries : List (κ × α)
  sorted : entries.Pairwise fun a b => Key.lt a.1 b.1 = true

namespace Table

variable {κ α : Type} [Key κ]

instance [DecidableEq κ] [DecidableEq α] : DecidableEq (Table κ α) := fun a b =>
  decidable_of_iff (a.entries = b.entries) (by cases a; cases b; simp)

def empty : Table κ α := ⟨[], .nil⟩

instance : Inhabited (Table κ α) := ⟨empty⟩

def isEmpty (t : Table κ α) : Bool := t.entries.isEmpty

def size (t : Table κ α) : Nat := t.entries.length

def keys (t : Table κ α) : List κ := t.entries.map (·.1)

def values (t : Table κ α) : List α := t.entries.map (·.2)

/-- The sum of a number for each value. -/
def sumBy (t : Table κ α) (f : α → Nat) : Nat := t.entries.foldr (fun e n => f e.2 + n) 0

/-- The value stored under `k` in a sorted list of entries. -/
def find? (k : κ) : List (κ × α) → Option α
  | [] => none
  | e :: rest =>
    if Key.lt e.1 k then find? k rest
    else if Key.lt k e.1 then none
    else some e.2

def get? (t : Table κ α) (k : κ) : Option α := find? k t.entries

def contains (t : Table κ α) (k : κ) : Bool := (t.get? k).isSome

/-- Places `(k, v)` into a sorted list of entries, over an entry of the same key. -/
def place (k : κ) (v : α) : List (κ × α) → List (κ × α)
  | [] => [(k, v)]
  | e :: rest =>
    if Key.lt k e.1 then (k, v) :: e :: rest
    else if Key.lt e.1 k then e :: place k v rest
    else (k, v) :: rest

theorem mem_place {k : κ} {v : α} {e : κ × α} {l : List (κ × α)} (h : e ∈ place k v l) :
    e = (k, v) ∨ e ∈ l := by
  induction l with
  | nil => simpa [place] using h
  | cons x rest ih =>
    unfold place at h
    split at h
    · simpa using h
    · split at h
      · rcases List.mem_cons.1 h with h | h
        · simp [h]
        · rcases ih h with h | h <;> simp [h]
      · rcases List.mem_cons.1 h with h | h <;> simp [h]

theorem place_sorted {k : κ} {v : α} {l : List (κ × α)}
    (h : l.Pairwise fun a b => Key.lt a.1 b.1 = true) :
    (place k v l).Pairwise fun a b => Key.lt a.1 b.1 = true := by
  induction l with
  | nil => simp [place]
  | cons x rest ih =>
    obtain ⟨hx, hrest⟩ := List.pairwise_cons.1 h
    unfold place
    split
    case isTrue hk =>
      refine List.pairwise_cons.2 ⟨fun e he => ?_, h⟩
      rcases List.mem_cons.1 he with rfl | he
      · exact hk
      · exact Key.trans hk (hx e he)
    case isFalse hk =>
      split
      case isTrue hk' =>
        refine List.pairwise_cons.2 ⟨fun e he => ?_, ih hrest⟩
        rcases mem_place he with rfl | he
        · exact hk'
        · exact hx e he
      case isFalse hk' =>
        have heq : k = x.1 := Key.tri (by simpa using hk) (by simpa using hk')
        exact List.pairwise_cons.2 ⟨fun e he => heq ▸ hx e he, hrest⟩

def insert (t : Table κ α) (k : κ) (v : α) : Table κ α :=
  ⟨place k v t.entries, place_sorted t.sorted⟩

/-- The entries that satisfy `p`. -/
def filter (t : Table κ α) (p : κ → α → Bool) : Table κ α :=
  ⟨t.entries.filter fun e => p e.1 e.2, t.sorted.sublist List.filter_sublist⟩

def erase (t : Table κ α) (k : κ) : Table κ α :=
  t.filter fun x _ => Key.lt x k || Key.lt k x

/-- Of entries with one key the last wins. -/
def ofList (l : List (κ × α)) : Table κ α :=
  l.foldl (fun t e => t.insert e.1 e.2) empty

/-- The entry with the greatest key at or before `k`. -/
def floor? (t : Table κ α) (k : κ) : Option (κ × α) :=
  (t.entries.filter fun e => !Key.lt k e.1).getLast?

/-- The entry with the least key at or after `k`. -/
def ceil? (t : Table κ α) (k : κ) : Option (κ × α) :=
  t.entries.find? fun e => !Key.lt e.1 k

/-! ## Reading after writing -/

theorem find?_eq_some_iff {l : List (κ × α)} (h : l.Pairwise fun a b => Key.lt a.1 b.1 = true)
    {k : κ} {v : α} : find? k l = some v ↔ (k, v) ∈ l := by
  induction l with
  | nil => simp [find?]
  | cons x rest ih =>
    obtain ⟨hx, hrest⟩ := List.pairwise_cons.1 h
    unfold find?
    split
    case isTrue hk =>
      have hne : (k, v) ≠ x := by rintro rfl; simp [Key.irrefl] at hk
      simp [ih hrest, hne]
    case isFalse hk =>
      split
      case isTrue hk' =>
        have hne : (k, v) ≠ x := by rintro rfl; simp [Key.irrefl] at hk'
        have hnot : (k, v) ∉ rest := fun hm =>
          absurd (Key.trans hk' (hx _ hm)) (by simp [Key.irrefl])
        simp [hne, hnot]
      case isFalse hk' =>
        have heq : x.1 = k := Key.tri (by simpa using hk) (by simpa using hk')
        have hnot : (k, v) ∉ rest := fun hm => by
          have := hx _ hm
          rw [heq] at this
          simp [Key.irrefl] at this
        obtain ⟨x₁, x₂⟩ := x
        simp only at heq
        subst heq
        simp [hnot, eq_comm]

theorem get?_eq_some_iff {t : Table κ α} {k : κ} {v : α} :
    t.get? k = some v ↔ (k, v) ∈ t.entries :=
  find?_eq_some_iff t.sorted

@[simp] theorem get?_empty (k : κ) : (empty : Table κ α).get? k = none := rfl

theorem find?_place_self (k : κ) (v : α) (l : List (κ × α)) : find? k (place k v l) = some v := by
  induction l with
  | nil => simp [place, find?, Key.irrefl]
  | cons x rest ih =>
    unfold place
    split
    · simp [find?, Key.irrefl]
    · split
      case isTrue h => simp [find?, h, ih]
      case isFalse => simp [find?, Key.irrefl]

theorem find?_place_of_ne {k k' : κ} (h : k' ≠ k) (v : α) (l : List (κ × α)) :
    find? k' (place k v l) = find? k' l := by
  have key : ∀ rest : List (κ × α), find? k' ((k, v) :: rest) =
      if Key.lt k k' then find? k' rest else none := by
    intro rest
    rw [find?]
    split
    · rfl
    · split
      · rfl
      · exact absurd (Key.tri (by simp_all) (by simp_all)) h
  induction l with
  | nil => simp [place, key, find?]
  | cons x rest ih =>
    unfold place
    split
    case isTrue hk =>
      rw [key]
      split
      · rfl
      case isFalse hk' =>
        have hlt : Key.lt k' k = true := by
          cases hc : Key.lt k' k with
          | true => rfl
          | false => exact absurd (Key.tri hc (by simpa using hk')) h
        have := Key.trans hlt hk
        simp [find?, this, Key.asymm this]
    case isFalse hk =>
      split
      case isTrue hk' =>
        rw [find?, find?, ih]
      case isFalse hk' =>
        have heq : k = x.1 := Key.tri (by simpa using hk) (by simpa using hk')
        rw [key, find?, ← heq]
        split
        · rfl
        · split
          · rfl
          · exact absurd (Key.tri (by simp_all) (by simp_all)) h

@[simp] theorem get?_insert_self (t : Table κ α) (k : κ) (v : α) :
    (t.insert k v).get? k = some v :=
  find?_place_self k v t.entries

theorem get?_insert_of_ne (t : Table κ α) {k k' : κ} (h : k' ≠ k) (v : α) :
    (t.insert k v).get? k' = t.get? k' :=
  find?_place_of_ne h v t.entries

theorem get?_filter (t : Table κ α) (p : κ → α → Bool) (k : κ) :
    (t.filter p).get? k = (t.get? k).filter (p k) := by
  apply Option.ext
  intro v
  rw [get?_eq_some_iff, Option.filter_eq_some_iff, get?_eq_some_iff]
  simp [filter]

@[simp] theorem get?_erase_self (t : Table κ α) (k : κ) : (t.erase k).get? k = none := by
  rw [erase, get?_filter]
  cases t.get? k <;> simp [Option.filter, Key.irrefl]

theorem get?_erase_of_ne (t : Table κ α) {k k' : κ} (h : k' ≠ k) :
    (t.erase k).get? k' = t.get? k' := by
  rw [erase, get?_filter]
  have : (Key.lt k' k || Key.lt k k') = true := by
    cases h₁ : Key.lt k' k with
    | true => rfl
    | false =>
      cases h₂ : Key.lt k k' with
      | true => rfl
      | false => exact absurd (Key.tri h₁ h₂) h
  cases t.get? k' <;> simp [Option.filter, this]

private theorem entries_eq_of_mem_iff {l m : List (κ × α)}
    (hl : l.Pairwise fun a b => Key.lt a.1 b.1 = true)
    (hm : m.Pairwise fun a b => Key.lt a.1 b.1 = true)
    (h : ∀ e, e ∈ l ↔ e ∈ m) : l = m := by
  induction l generalizing m with
  | nil =>
    cases m with
    | nil => rfl
    | cons y m => exact absurd ((h y).2 (by simp)) (by simp)
  | cons x l ih =>
    cases m with
    | nil => exact absurd ((h x).1 (by simp)) (by simp)
    | cons y m =>
      obtain ⟨hx, hl'⟩ := List.pairwise_cons.1 hl
      obtain ⟨hy, hm'⟩ := List.pairwise_cons.1 hm
      have hxy : x = y := by
        rcases List.mem_cons.1 ((h x).1 (by simp)) with h₁ | h₁
        · exact h₁
        rcases List.mem_cons.1 ((h y).2 (by simp)) with h₂ | h₂
        · exact h₂.symm
        · exact absurd (Key.trans (hy x h₁) (hx y h₂)) (by simp [Key.irrefl])
      subst hxy
      congr 1
      refine ih hl' hm' fun e => ⟨fun he => ?_, fun he => ?_⟩
      · rcases List.mem_cons.1 ((h e).1 (by simp [he])) with h₁ | h₁
        · exact absurd (hx e he) (by simp [h₁, Key.irrefl])
        · exact h₁
      · rcases List.mem_cons.1 ((h e).2 (by simp [he])) with h₁ | h₁
        · exact absurd (hy e he) (by simp [h₁, Key.irrefl])
        · exact h₁

/-- Tables that answer every question alike are equal. -/
theorem ext_get? {s t : Table κ α} (h : ∀ k, s.get? k = t.get? k) : s = t := by
  have : s.entries = t.entries :=
    entries_eq_of_mem_iff s.sorted t.sorted fun e => by
      rw [← get?_eq_some_iff (t := s), ← get?_eq_some_iff (t := t), h]
  cases s
  cases t
  simp_all

end Table

/-- A finite set of keys, listed in increasing order. -/
abbrev KeySet (κ : Type) [Key κ] := Table κ Unit

namespace KeySet

variable {κ : Type} [Key κ]

def add (s : KeySet κ) (k : κ) : KeySet κ := s.insert k ()

def toList (s : KeySet κ) : List κ := s.keys

def addAll (s : KeySet κ) (ks : List κ) : KeySet κ := ks.foldl add s

def ofKeys (ks : List κ) : KeySet κ := addAll Table.empty ks

/-- The least key and the set without it. -/
def popFirst? (s : KeySet κ) : Option (κ × KeySet κ) :=
  s.keys.head?.map fun k => (k, s.erase k)

end KeySet
end TypeRecovery
