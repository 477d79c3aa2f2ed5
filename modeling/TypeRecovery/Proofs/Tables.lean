import Mathlib.Data.List.Perm.Subperm
import TypeRecovery.Table

/-!
# Reading tables

What the queries of a table answer, in terms of `Table.get?` alone: membership after a change, the
entries around a key, and the table that results when the entries of one table are written over
another.
-/
namespace TypeRecovery

theorem Key.lt_nat {a b : Nat} : Key.lt a b = true ↔ a < b :=
  iff_of_eq Nat.blt_eq

theorem Key.lt_nat_false {a b : Nat} : Key.lt a b = false ↔ b ≤ a := by
  rw [← Bool.not_eq_true, Key.lt_nat]
  omega

namespace Table

variable {κ α β : Type} [Key κ]

theorem contains_iff {t : Table κ α} {k : κ} : t.contains k = true ↔ ∃ v, t.get? k = some v :=
  Option.isSome_iff_exists

theorem contains_eq_false_iff {t : Table κ α} {k : κ} : t.contains k = false ↔ t.get? k = none := by
  simp [contains]

theorem contains_of_get? {t : Table κ α} {k : κ} {v : α} (h : t.get? k = some v) :
    t.contains k = true :=
  contains_iff.2 ⟨v, h⟩

@[simp] theorem contains_empty (k : κ) : (empty : Table κ α).contains k = false := rfl

section Decided

variable [DecidableEq κ]

theorem get?_insert (t : Table κ α) (k k' : κ) (v : α) :
    (t.insert k v).get? k' = if k' = k then some v else t.get? k' := by
  by_cases h : k' = k
  · subst h
    simp
  · simp [h, get?_insert_of_ne t h]

theorem eq_or_of_get?_insert {t : Table κ α} {k k' : κ} {v w : α}
    (h : (t.insert k v).get? k' = some w) : k' = k ∧ v = w ∨ t.get? k' = some w := by
  rw [get?_insert] at h
  split at h
  case isTrue heq => exact .inl ⟨heq, Option.some.inj h⟩
  case isFalse => exact .inr h

theorem insert_insert (t : Table κ α) (k : κ) (v w : α) :
    (t.insert k v).insert k w = t.insert k w := by
  refine ext_get? fun k' => ?_
  simp only [get?_insert]
  split <;> rfl

theorem insert_eq_self {t : Table κ α} {k : κ} {v : α} (h : t.get? k = some v) :
    t.insert k v = t := by
  apply ext_get?
  intro k'
  rw [get?_insert]
  split
  case isTrue heq => rw [heq, h]
  case isFalse => rfl

theorem get?_erase (t : Table κ α) (k k' : κ) :
    (t.erase k).get? k' = if k' = k then none else t.get? k' := by
  by_cases h : k' = k
  · subst h
    simp
  · simp [h, get?_erase_of_ne t h]

theorem contains_insert (t : Table κ α) (k k' : κ) (v : α) :
    (t.insert k v).contains k' = (decide (k' = k) || t.contains k') := by
  by_cases h : k' = k <;> simp [contains, get?_insert, h]

theorem contains_insert_self (t : Table κ α) (k : κ) (v : α) : (t.insert k v).contains k = true := by
  rw [contains_insert, decide_eq_true rfl, Bool.true_or]

theorem contains_insert_of_contains {t : Table κ α} {k' : κ} (h : t.contains k' = true) (k : κ)
    (v : α) : (t.insert k v).contains k' = true := by
  rw [contains_insert, h, Bool.or_true]

theorem contains_erase (t : Table κ α) (k k' : κ) :
    (t.erase k).contains k' = (decide (k' ≠ k) && t.contains k') := by
  by_cases h : k' = k <;> simp [contains, get?_erase, h]

theorem erase_eq_self {t : Table κ α} {k : κ} (h : t.contains k = false) : t.erase k = t := by
  apply ext_get?
  intro k'
  rw [get?_erase]
  split
  case isTrue heq =>
    rw [heq, contains_eq_false_iff.1 h]
  case isFalse => rfl

end Decided

theorem mem_keys_iff {t : Table κ α} {k : κ} : k ∈ t.keys ↔ t.contains k = true := by
  rw [contains_iff]
  constructor
  · intro h
    obtain ⟨⟨k', v⟩, he, rfl⟩ := List.mem_map.1 h
    exact ⟨v, get?_eq_some_iff.2 he⟩
  · rintro ⟨v, h⟩
    exact List.mem_map.2 ⟨(k, v), get?_eq_some_iff.1 h, rfl⟩

theorem keys_sorted (t : Table κ α) : t.keys.Pairwise fun a b => Key.lt a b = true :=
  List.pairwise_map.2 t.sorted

/-- The keys of a table as a set. -/
def domain (t : Table κ α) : KeySet κ :=
  ⟨t.entries.map fun e => (e.1, ()), List.pairwise_map.2 t.sorted⟩

theorem keys_domain (t : Table κ α) : t.domain.keys = t.keys := by
  simp [domain, keys]

theorem contains_domain (t : Table κ α) (k : κ) : t.domain.contains k = t.contains k := by
  rw [Bool.eq_iff_iff, ← mem_keys_iff, ← mem_keys_iff, keys_domain]

theorem keys_eq_of_contains {s : Table κ α} {t : Table κ β}
    (h : ∀ k, s.contains k = t.contains k) : s.keys = t.keys := by
  have hd : s.domain = t.domain := by
    apply ext_get?
    intro k
    have hk : s.domain.contains k = t.domain.contains k := by
      rw [contains_domain, contains_domain, h]
    cases hs : s.domain.get? k <;> cases ht : t.domain.get? k <;> simp_all [contains]
  rw [← keys_domain s, ← keys_domain t, hd]

theorem of_floor?_eq_none {t : Table Nat α} {k : Nat} (h : t.floor? k = none) {b : Nat} {w : α}
    (hb : t.get? b = some w) : k < b := by
  simp only [floor?, List.getLast?_eq_none_iff, List.filter_eq_nil_iff] at h
  have hlt := h _ (get?_eq_some_iff.1 hb)
  simpa [Key.lt_nat] using hlt

theorem of_floor?_eq_some {t : Table Nat α} {k a : Nat} {v : α} (h : t.floor? k = some (a, v)) :
    t.get? a = some v ∧ a ≤ k ∧ ∀ b w, t.get? b = some w → b ≤ k → b ≤ a := by
  unfold floor? at h
  obtain ⟨front, hfront⟩ := List.getLast?_eq_some_iff.1 h
  have hmem : (a, v) ∈ t.entries.filter fun e => !Key.lt k e.1 := by simp [hfront]
  obtain ⟨hentry, hle⟩ := List.mem_filter.1 hmem
  refine ⟨get?_eq_some_iff.2 hentry, Key.lt_nat_false.1 (by simpa using hle), ?_⟩
  intro b w hb hbk
  have hsorted := t.sorted.filter fun e => !Key.lt k e.1
  have hbmem : (b, w) ∈ t.entries.filter fun e => !Key.lt k e.1 :=
    List.mem_filter.2 ⟨get?_eq_some_iff.1 hb, by simpa using Key.lt_nat_false.2 hbk⟩
  rw [hfront] at hsorted hbmem
  rcases List.mem_append.1 hbmem with hbmem | hbmem
  · have hlt := (List.pairwise_append.1 hsorted).2.2 _ hbmem (a, v) (by simp)
    exact Nat.le_of_lt (Key.lt_nat.1 hlt)
  · have heq : (b, w) = (a, v) := by simpa using hbmem
    exact Nat.le_of_eq (Prod.mk.inj heq).1

theorem of_ceil?_eq_none {t : Table Nat α} {k : Nat} (h : t.ceil? k = none) {b : Nat} {w : α}
    (hb : t.get? b = some w) : b < k := by
  have hlt := List.find?_eq_none.1 h _ (get?_eq_some_iff.1 hb)
  simpa [Key.lt_nat] using hlt

theorem of_ceil?_eq_some {t : Table Nat α} {k a : Nat} {v : α} (h : t.ceil? k = some (a, v)) :
    t.get? a = some v ∧ k ≤ a ∧ ∀ b w, t.get? b = some w → k ≤ b → a ≤ b := by
  obtain ⟨hle, front, back, hsplit, hfront⟩ := List.find?_eq_some_iff_append.1 h
  refine ⟨get?_eq_some_iff.2 (by simp [hsplit]), Key.lt_nat_false.1 (by simpa using hle), ?_⟩
  intro b w hb hkb
  have hbmem := get?_eq_some_iff.1 hb
  have hsorted := t.sorted
  rw [hsplit] at hbmem hsorted
  rcases List.mem_append.1 hbmem with hbmem | hbmem
  · have hlt := hfront _ hbmem
    simp only [Bool.not_not] at hlt
    exact absurd (Key.lt_nat.1 hlt) (by omega)
  · rcases List.mem_cons.1 hbmem with heq | hbmem
    · exact Nat.le_of_eq (Prod.mk.inj heq).1.symm
    · have hlt := (List.pairwise_cons.1 (List.pairwise_append.1 hsorted).2.1).1 _ hbmem
      exact Nat.le_of_lt (Key.lt_nat.1 hlt)

/-- Writes entries over a table, one after the other. -/
def merge (t : Table κ α) (es : List (κ × α)) : Table κ α :=
  es.foldl (fun t e => t.insert e.1 e.2) t

theorem find?_eq_none_of_lt {k : κ} {es : List (κ × α)} (h : ∀ e ∈ es, Key.lt k e.1 = true) :
    find? k es = none := by
  cases es with
  | nil => rfl
  | cons e rest =>
    have hlt := h e (by simp)
    simp [find?, hlt, Key.asymm hlt]

theorem get?_merge_sorted {es : List (κ × α)} (hs : es.Pairwise fun a b => Key.lt a.1 b.1 = true)
    (t : Table κ α) (k : κ) : (t.merge es).get? k = (find? k es <|> t.get? k) := by
  induction es generalizing t with
  | nil => simp [merge, find?]
  | cons e rest ih =>
    obtain ⟨he, hrest⟩ := List.pairwise_cons.1 hs
    have hstep : (t.merge (e :: rest)).get? k = (find? k rest <|> (t.insert e.1 e.2).get? k) :=
      ih hrest _
    rw [hstep, find?]
    split
    case isTrue hlt => rw [get?_insert_of_ne t (Key.ne_of_lt hlt).symm]
    case isFalse hlt =>
      split
      case isTrue hlt' =>
        rw [get?_insert_of_ne t (Key.ne_of_lt hlt'),
          find?_eq_none_of_lt fun e' he' => Key.trans hlt' (he e' he')]
      case isFalse hlt' =>
        have heq : e.1 = k := Key.tri (by simpa using hlt) (by simpa using hlt')
        subst heq
        rw [find?_eq_none_of_lt he]
        simp

theorem get?_merge (t u : Table κ α) (k : κ) :
    (t.merge u.entries).get? k = (u.get? k <|> t.get? k) :=
  get?_merge_sorted u.sorted t k

theorem contains_or_mem_of_merge [DecidableEq κ] {t : Table κ α} {es : List (κ × α)} {k : κ}
    (h : (t.merge es).contains k = true) : t.contains k = true ∨ k ∈ es.map (·.1) := by
  induction es generalizing t with
  | nil => exact .inl h
  | cons e rest ih =>
    rcases ih (t := t.insert e.1 e.2) h with hbefore | hrest
    · rw [contains_insert, Bool.or_eq_true, decide_eq_true_iff] at hbefore
      rcases hbefore with rfl | hbefore
      · exact .inr (by simp)
      · exact .inl hbefore
    · exact .inr (List.mem_cons_of_mem _ hrest)

theorem merge_empty (t : Table κ α) : empty.merge t.entries = t := by
  apply ext_get?
  intro k
  rw [get?_merge, get?_empty]
  cases t.get? k <;> rfl

theorem filter_entries (t : Table κ α) [DecidableEq κ] (k : κ) :
    t.entries.filter (fun e => decide (e.1 = k)) = ((t.get? k).map fun v => (k, v)).toList := by
  obtain ⟨entries, sorted⟩ := t
  unfold get?
  simp only
  induction entries with
  | nil => rfl
  | cons e rest ih =>
    obtain ⟨he, hrest⟩ := List.pairwise_cons.1 sorted
    have hbelow : ∀ {k}, (k = e.1 ∨ Key.lt k e.1 = true) →
        rest.filter (fun e => decide (e.1 = k)) = [] := by
      intro k hk
      rw [List.filter_eq_nil_iff]
      intro e' he'
      have hlt : Key.lt k e'.1 = true := by
        rcases hk with rfl | hk
        · exact he e' he'
        · exact Key.trans hk (he e' he')
      simpa using (Key.ne_of_lt hlt).symm
    rw [find?]
    split
    case isTrue hlt => simpa [Key.ne_of_lt hlt] using ih hrest
    case isFalse hlt =>
      split
      case isTrue hlt' => simp [(Key.ne_of_lt hlt').symm, hbelow (.inr hlt')]
      case isFalse hlt' =>
        have heq : e.1 = k := Key.tri (by simpa using hlt) (by simpa using hlt')
        subst heq
        simp [hbelow (.inl rfl)]

def filterMap (t : Table κ α) (f : κ → α → Option β) : Table κ β where
  entries := t.entries.filterMap fun e => (f e.1 e.2).map fun b => (e.1, b)
  sorted := by
    rw [List.pairwise_filterMap]
    refine t.sorted.imp ?_
    intro a b hab x hx y hy
    obtain ⟨v, _, rfl⟩ := Option.map_eq_some_iff.1 hx
    obtain ⟨w, _, rfl⟩ := Option.map_eq_some_iff.1 hy
    exact hab

theorem get?_filterMap (t : Table κ α) (f : κ → α → Option β) (k : κ) :
    (t.filterMap f).get? k = (t.get? k).bind (f k) := by
  apply Option.ext
  intro b
  rw [get?_eq_some_iff, Option.bind_eq_some_iff]
  constructor
  · intro h
    obtain ⟨⟨k', a⟩, he, hb⟩ := List.mem_filterMap.1 h
    obtain ⟨b', hf, heq⟩ := Option.map_eq_some_iff.1 hb
    cases heq
    exact ⟨a, get?_eq_some_iff.2 he, hf⟩
  · rintro ⟨a, ha, hf⟩
    exact List.mem_filterMap.2 ⟨(k, a), get?_eq_some_iff.1 ha, by simp [hf]⟩

theorem keys_nodup (t : Table κ α) : t.keys.Nodup :=
  t.keys_sorted.imp Key.ne_of_lt

theorem size_eq_length_keys (t : Table κ α) : t.size = t.keys.length :=
  (List.length_map _).symm

theorem size_le_of_contains {t : Table κ α} {u : Table κ β}
    (h : ∀ k, t.contains k = true → u.contains k = true) : t.size ≤ u.size := by
  rw [size_eq_length_keys, size_eq_length_keys]
  refine (List.Nodup.subperm t.keys_nodup ?_).length_le
  intro k hk
  exact mem_keys_iff.2 (h k (mem_keys_iff.1 hk))

theorem size_erase_lt {t : Table κ α} {k : κ} (h : t.contains k = true) :
    (t.erase k).size < t.size := by
  obtain ⟨v, hv⟩ := contains_iff.1 h
  refine List.length_filter_lt_length_iff_exists.2 ⟨(k, v), get?_eq_some_iff.1 hv, ?_⟩
  simp [Key.irrefl]

theorem eq_empty_of_contains {t : Table κ α} (h : ∀ k, t.contains k = false) : t = empty := by
  apply ext_get?
  intro k
  exact contains_eq_false_iff.1 (h k)

omit [Key κ] in
theorem countP_lt_countP {p q : κ → Bool} {ks : List κ} (h : ∀ k ∈ ks, p k = true → q k = true)
    {k : κ} (hk : k ∈ ks) (hp : p k = false) (hq : q k = true) : ks.countP p < ks.countP q := by
  induction ks with
  | nil => cases hk
  | cons x rest ih =>
    have hmono : rest.countP p ≤ rest.countP q :=
      List.countP_mono_left fun y hy => h y (by simp [hy])
    have hx := h x (by simp)
    rcases List.mem_cons.1 hk with rfl | hk
    · simp only [List.countP_cons, hp, hq]
      simp only [Bool.false_eq_true, ↓reduceIte]
      omega
    · have hrest := ih (fun y hy => h y (by simp [hy])) hk
      simp only [List.countP_cons]
      cases hpx : p x with
      | false => simp only [Bool.false_eq_true, ↓reduceIte]; omega
      | true => simp only [hx hpx, ↓reduceIte]; omega

/-- How many of the keys have no entry. -/
def missing (t : Table κ α) (ks : List κ) : Nat := ks.countP fun k => !t.contains k

theorem missing_le_length (t : Table κ α) (ks : List κ) : t.missing ks ≤ ks.length :=
  List.countP_le_length

theorem missing_le_of_contains {t : Table κ α} {u : Table κ β} (ks : List κ)
    (h : ∀ k, t.contains k = true → u.contains k = true) : u.missing ks ≤ t.missing ks := by
  refine List.countP_mono_left fun k _ hk => ?_
  cases ht : t.contains k with
  | false => rfl
  | true => simp [h k ht] at hk

theorem missing_lt_of_contains {t : Table κ α} {u : Table κ β} {ks : List κ}
    (h : ∀ k, t.contains k = true → u.contains k = true) {k : κ} (hk : k ∈ ks)
    (ht : t.contains k = false) (hu : u.contains k = true) : u.missing ks < t.missing ks := by
  refine countP_lt_countP ?_ hk (by simp [hu]) (by simp [ht])
  intro k' _ hk'
  cases ht' : t.contains k' with
  | false => rfl
  | true => simp [h k' ht'] at hk'

end Table

namespace KeySet

variable {κ : Type} [Key κ] [DecidableEq κ]

theorem contains_add (s : KeySet κ) (k k' : κ) :
    Table.contains (s.add k) k' = (decide (k' = k) || s.contains k') :=
  Table.contains_insert s k k' ()

theorem contains_add_self (s : KeySet κ) (k : κ) : Table.contains (s.add k) k = true :=
  Table.contains_insert_self s k ()

theorem contains_add_of_contains {s : KeySet κ} {k' : κ} (h : s.contains k' = true) (k : κ) :
    Table.contains (s.add k) k' = true :=
  Table.contains_insert_of_contains h k ()

theorem add_eq_self {s : KeySet κ} {k : κ} (h : s.contains k = true) : s.add k = s := by
  apply Table.ext_get?
  intro k'
  unfold add
  rw [Table.get?_insert]
  split
  case isTrue heq =>
    obtain ⟨⟨⟩, hk⟩ := Table.contains_iff.1 h
    rw [heq, hk]
  case isFalse => rfl

omit [DecidableEq κ] in
theorem popFirst?_eq_none {s : KeySet κ} (h : s.popFirst? = none) : s = .empty := by
  refine Table.eq_empty_of_contains fun k => ?_
  have hkeys : s.keys = [] := List.head?_eq_none_iff.1 (Option.map_eq_none_iff.1 h)
  rw [← Bool.not_eq_true, ← Table.mem_keys_iff, hkeys]
  exact List.not_mem_nil

omit [DecidableEq κ] in
theorem popFirst?_eq_some {s rest : KeySet κ} {k : κ} (h : s.popFirst? = some (k, rest)) :
    s.contains k = true ∧ rest = s.erase k := by
  obtain ⟨first, hfirst, heq⟩ := Option.map_eq_some_iff.1 h
  cases heq
  exact ⟨Table.mem_keys_iff.1 (List.mem_of_mem_head? hfirst), rfl⟩

theorem contains_addAll (s : KeySet κ) (ks : List κ) (k : κ) :
    Table.contains (s.addAll ks) k = (decide (k ∈ ks) || s.contains k) := by
  induction ks generalizing s with
  | nil => simp [addAll]
  | cons x rest ih =>
    have hstep : Table.contains (s.addAll (x :: rest)) k =
        (decide (k ∈ rest) || Table.contains (s.add x) k) := ih _
    rw [hstep, contains_add]
    by_cases hx : k = x <;> simp [hx]

end KeySet
end TypeRecovery
