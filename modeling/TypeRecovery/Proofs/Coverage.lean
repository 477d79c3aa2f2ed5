import TypeRecovery.Proofs.MemberSizes

/-!
# Offsets that members cover

Whether an offset of a struct is covered is asked of the nearest member before it. Every change to
a layout keeps what is covered, with one exception: a member that is given a smaller type gives up
its last bytes. So an offset of a struct of the run that was covered on the way of a computation is
covered in the end, unless the member around it was narrowed.
-/
namespace TypeRecovery

namespace Layout

variable {l l' : Layout} {n a : Nat} {m : Member}

/-- A member covers the offset, and ends within the range of words. -/
structure CoveredBy (l : Layout) (n a : Nat) (m : Member) : Prop where
  held : l.members.get? a = some m
  start_le : a ≤ n
  lt_stop : n < a + m.width
  word : a + m.width < Word.bound

/-- Only one member can cover an offset, and it is the one that is asked. -/
theorem WellFormed.memberAt_eq_some (hl : l.WellFormed) :
    l.memberAt n = .ok (some m) ↔ l.CoveredBy n m.offset m := by
  constructor
  · intro h
    rcases memberAt_eq_ok h with ⟨_, hnone⟩ | ⟨a, k, hfloor, hword, hfound⟩
    · cases hnone
    · obtain ⟨hk, hle, _⟩ := Table.of_floor?_eq_some hfloor
      have hkey := hl.keyed hk
      split at hfound
      case isTrue hlt =>
        cases hfound
        exact ⟨by rw [hkey]; exact hk, by omega, hlt, hword⟩
      case isFalse => cases hfound
  · intro h
    cases hfloor : l.members.floor? n with
    | none =>
      have hlt := Table.of_floor?_eq_none hfloor h.held
      exact absurd h.start_le (by omega)
    | some e =>
      obtain ⟨b, k⟩ := e
      obtain ⟨hk, hbn, hlast⟩ := Table.of_floor?_eq_some hfloor
      have hb : m.offset = b := by
        rcases Nat.lt_or_eq_of_le (hlast m.offset m h.held h.start_le) with hlt | heq
        · have hdis := hl.disjoint h.held hk hlt
          have hstop := h.lt_stop
          omega
        · exact heq
      subst hb
      obtain rfl : m = k := Option.some.inj (h.held.symm.trans hk)
      have hstop : m.stop = .ok (m.offset + m.width) := Word.add_eq_ok_iff.2 ⟨h.word, rfl⟩
      unfold memberAt
      rw [hfloor]
      exact Checked.bind_eq_ok.2 ⟨_, hstop, by rw [if_pos h.lt_stop]; rfl⟩

theorem covers_eq_true : l.covers n = .ok true ↔ ∃ m, l.memberAt n = .ok (some m) := by
  simp only [covers, Checked.bind_eq_ok, Checked.pure_eq_ok, Option.isSome_iff_exists]
  constructor
  · rintro ⟨_, hat, m, rfl⟩
    exact ⟨m, hat⟩
  · rintro ⟨m, hat⟩
    exact ⟨_, hat, m, rfl⟩

theorem WellFormed.covers_iff (hl : l.WellFormed) :
    l.covers n = .ok true ↔ ∃ a m, l.CoveredBy n a m := by
  rw [covers_eq_true]
  constructor
  · rintro ⟨m, hat⟩
    exact ⟨m.offset, m, hl.memberAt_eq_some.1 hat⟩
  · rintro ⟨a, m, h⟩
    exact ⟨m, hl.memberAt_eq_some.2 (by rw [hl.keyed h.held]; exact h)⟩

theorem CoveredBy.insert (h : l.CoveredBy n a m) {b : Nat} (hne : a ≠ b) (k : Member)
    (size : Nat) : CoveredBy { l with members := l.members.insert b k, size } n a m :=
  { h with held := by rw [Table.get?_insert_of_ne _ hne]; exact h.held }

theorem get?_clearFor {offset size : Nat} (hword : offset < Word.max)
    (h : (Layout.clearFor offset size).run.run l = .ok (.ok (), l')) :
    l'.members.get? offset = l.members.get? offset := by
  rcases clearFor_eq_ok h with ⟨_, hok, _⟩ | ⟨_, rfl, _⟩ | ⟨next, _, hnext, _, _, rfl⟩
  · cases hok
  · rfl
  · obtain ⟨_, hafter, _⟩ := of_nextMember_eq_some hnext hword
    rw [Table.get?_erase, if_neg (by omega)]

/-- The only member to go is the sentinel, one byte wide, and the member that needs the room runs
over it. -/
theorem CoveredBy.of_clearFor (hm : l.CoveredBy n a m) {offset size : Nat}
    (hword : offset < Word.max)
    (h : (Layout.clearFor offset size).run.run l = .ok (.ok (), l')) :
    l'.members.get? a = some m ∨ offset ≤ n ∧ n < offset + size := by
  rcases clearFor_eq_ok h with ⟨_, hok, _⟩ | ⟨_, rfl, _⟩ | ⟨next, _, hnext, hlt, hsentinel, rfl⟩
  · cases hok
  · exact .inl hm.held
  · by_cases heq : a = next
    · obtain ⟨_, hafter, _⟩ := of_nextMember_eq_some hnext hword
      obtain ⟨k, hk, hone, _⟩ := isTrailingSentinel_eq_true hsentinel
      rw [← heq] at hk
      obtain rfl : m = k := Option.some.inj (hm.held.symm.trans hk)
      have hwidth : m.width = 1 := by unfold Member.width; omega
      have hstart := hm.start_le
      have hstop := hm.lt_stop
      exact .inr ⟨by omega, by omega⟩
    · exact .inl (by rw [Table.get?_erase, if_neg heq]; exact hm.held)

theorem coveredBy_placeholder (l : Layout) (size : Nat) (hword : n + 1 < Word.bound) :
    CoveredBy { l with members := l.members.insert n (Member.placeholder n), size } n n
      (Member.placeholder n) where
  held := Table.get?_insert_self _ _ _
  start_le := Nat.le_refl n
  lt_stop := Nat.lt_succ_self n
  word := hword

theorem WellFormed.covers_of_addMember (hl : l.WellFormed) {answer : Except Refusal Bool}
    (h : (Layout.addMember n).run.run l = .ok (answer, l')) :
    (∃ added, answer = .ok added) ∧ l'.covers n = .ok true := by
  have hl' := hl.addMember h
  rcases addMember_eq_ok h with ⟨rfl, hcovers, rfl⟩ | ⟨rfl, _, hword, rfl⟩
  · exact ⟨⟨_, rfl⟩, hcovers⟩
  · exact ⟨⟨_, rfl⟩, hl'.covers_iff.2 ⟨n, _, l.coveredBy_placeholder _ hword⟩⟩

theorem WellFormed.lt_size_of_covers (hl : l.WellFormed) (h : l.covers n = .ok true) :
    n < l.size := by
  obtain ⟨a, m, hm⟩ := hl.covers_iff.1 h
  have hinside := hl.inside hm.held
  have hstop := hm.lt_stop
  omega

end Layout

namespace LayoutEdit

open Layout

variable {e : LayoutEdit} {l l' : Layout} {answer : Except Refusal Answer} {n : Nat}

/-- By the change, the member that covers an offset is given a type that ends before it. -/
def Narrows (e : LayoutEdit) (l l' : Layout) (n : Nat) : Prop :=
  ∃ a m type size, e = .setMemberType a type size ∧ l.members.get? a = some m ∧
    n < a + m.width ∧ l'.members.get? a = some { m with type, size } ∧ a + max size 1 ≤ n

/-- A member is typed: the one that covers the offset gets another size, is the sentinel that makes
room, or stays. -/
theorem covers_or_narrows_of_setMemberType (hl : l.WellFormed) (hn : l.covers n = .ok true)
    {offset size : Nat} {type : Ty}
    (h : (Layout.setMemberType offset type size).run.run l = .ok (.ok (), l')) :
    l'.covers n = .ok true ∨ (LayoutEdit.setMemberType offset type size).Narrows l l' n := by
  obtain ⟨hl', _⟩ := hl.setMemberType h
  rcases Layout.setMemberType_eq_ok h with ⟨_, hok, _⟩ | ⟨_, hstart, hword, cleared, hclear, rfl⟩
  · cases hok
  obtain ⟨first, hfirst, hend⟩ := hl.get?_of_memberStart hstart
  obtain ⟨a, m, hm⟩ := hl.covers_iff.1 hn
  have hpos := first.width_pos
  have hmax : Word.bound = Word.max + 1 := rfl
  have hkept := (Layout.get?_clearFor (by omega) hclear).trans hfirst
  have hget : ∀ b, (cleared.retype offset type size).members.get? b =
      if b = offset then some { first with type, size } else cleared.members.get? b := by
    intro b
    rw [Layout.retype, hkept, Table.get?_insert]
  have hcovered : offset ≤ n → n < offset + max size 1 → Layout.CoveredBy
      { cleared.retype offset type size with
        size := max (cleared.retype offset type size).size (offset + size) }
      n offset { first with type, size } := by
    intro hle hlt
    refine ⟨(hget offset).trans (if_pos rfl), hle, hlt, ?_⟩
    simp only [Member.width]
    omega
  by_cases heq : a = offset
  · subst heq
    obtain rfl : m = first := Option.some.inj (hm.held.symm.trans hfirst)
    by_cases hlt : n < a + max size 1
    · exact .inl (hl'.covers_iff.2 ⟨a, _, hcovered hm.start_le hlt⟩)
    · refine .inr ⟨a, m, type, size, rfl, hm.held, hm.lt_stop, ?_, by omega⟩
      exact (hget a).trans (if_pos rfl)
  · refine .inl (hl'.covers_iff.2 ?_)
    rcases hm.of_clearFor (by omega) hclear with hheld | ⟨hle, hlt⟩
    · refine ⟨a, m, ?_, hm.start_le, hm.lt_stop, hm.word⟩
      exact (hget a).trans ((if_neg heq).trans hheld)
    · exact ⟨offset, _, hcovered hle (by omega)⟩

theorem covers_or_narrows (hl : l.WellFormed) (h : e.perform.run.run l = .ok (answer, l'))
    (hn : l.covers n = .ok true) : l'.covers n = .ok true ∨ e.Narrows l l' n := by
  obtain ⟨hl', _⟩ := perform_wellFormed hl h
  obtain ⟨a, m, hm⟩ := hl.covers_iff.1 hn
  cases e with
  | addMember offset =>
    obtain ⟨_, hadd, _⟩ := Edit.map_eq_ok.1 h
    rcases Layout.addMember_eq_ok hadd with ⟨_, _, rfl⟩ | ⟨_, hcovers, _, rfl⟩
    · exact .inl hn
    · have hne : a ≠ offset := by
        rintro rfl
        have hstop := hl.stop_le_of_not_covers hcovers hm.held (Nat.le_refl a)
        have hpos := m.width_pos
        omega
      exact .inl (hl'.covers_iff.2 ⟨a, m, hm.insert hne _ _⟩)
  | setMemberType offset type size =>
    obtain ⟨result, hset, _⟩ := Edit.map_eq_ok.1 h
    cases result with
    | ok _ => exact covers_or_narrows_of_setMemberType hl hn hset
    | error cause =>
      rcases Layout.setMemberType_eq_ok hset with ⟨_, _, rfl⟩ | ⟨hok, _⟩
      · exact .inl hn
      · cases hok
  | maximizeSize size =>
    obtain ⟨_, hgrow, _⟩ := Edit.map_eq_ok.1 h
    rcases Layout.maximizeSize_eq_ok hgrow with ⟨_, rfl⟩ | ⟨_, hlt, rfl | rfl⟩
    · exact .inl hn
    · exact .inl (hl'.covers_iff.2 ⟨a, m, { hm with }⟩)
    · have hinside := hl.inside hm.held
      have hpos := m.width_pos
      exact .inl (hl'.covers_iff.2 ⟨a, m, hm.insert (by omega) _ _⟩)
  | setMemberComment offset comment =>
    obtain ⟨_, hset, _⟩ := Edit.map_eq_ok.1 h
    rcases Layout.setMemberComment_eq_ok hset with ⟨_, _, rfl⟩ | ⟨k, _, hk, rfl⟩
    · exact .inl hn
    · refine .inl (hl'.covers_iff.2 ?_)
      by_cases heq : a = offset
      · subst heq
        obtain rfl : k = m := Option.some.inj (hk.symm.trans hm.held)
        exact ⟨a, _, Table.get?_insert_self _ _ _, hm.start_le, hm.lt_stop, hm.word⟩
      · exact ⟨a, m, hm.insert heq _ _⟩

end LayoutEdit

namespace Session

variable {settings : Settings} {db : Database} {s t : Session} {id : StructId} {l : Layout}
  {n : Nat}

/-- A member of a struct of the run covers the offset. -/
def Covers (s : Session) (id : StructId) (n : Nat) : Prop :=
  s.isNewType id = true ∧ ∃ l, s.db.layout? id = some l ∧ l.covers n = .ok true

instance (s : Session) (id : StructId) (n : Nat) : Decidable (s.Covers id n) :=
  decidable_of_iff (s.isNewType id = true ∧
    (s.db.layout? id).any (fun l => decide (l.covers n = .ok true)) = true)
    (by simp [Covers, Option.any_eq_true])

theorem covers_iff_of_layout (hid : s.isNewType id = true) (hl : s.db.layout? id = some l) :
    s.Covers id n ↔ l.covers n = .ok true := by
  simp [Covers, hid, hl]

/-- From one session to the next, the member that covers an offset of a struct is given a type
that ends before it. -/
def Narrows (id : StructId) (n : Nat) (u v : Session) : Prop :=
  ∃ l l' a m m', u.db.layout? id = some l ∧ v.db.layout? id = some l' ∧
    l.members.get? a = some m ∧ n < a + m.width ∧ l'.members.get? a = some m' ∧
    a + m'.width ≤ n ∧ TypeStore.sizeOf u.db m'.type = .ok (some m'.size)

/-- Along some sessions an offset of a struct is left uncovered: a member that covers it is narrowed,
and from there on none does. -/
def Uncovers (id : StructId) (n : Nat) (l : List Session) : Prop :=
  ∃ past u v rest, l = past ++ u :: v :: rest ∧ u.Covers id n ∧ Narrows id n u v ∧
    ∀ w ∈ v :: rest, ¬ w.Covers id n

theorem Sound.layout?_of_step (hs : s.Sound) (hid : s.isNewType id = true)
    (hl : s.db.layout? id = some l) (hstep : Step settings s t) :
    t.isNewType id = true ∧ (t.db.layout? id = some l ∨ ∃ (e : LayoutEdit) (answer : _)
      (l' : Layout), e.Sized s.db ∧ e.perform.run.run l = .ok (answer, l') ∧
        t.db.layout? id = some l') := by
  have hgrown := hs.grown_of_step hstep
  have hnew := hgrown.isNewType hl hid
  obtain ⟨l', hl', _⟩ := hgrown.layouts hl
  refine ⟨hnew, ?_⟩
  cases hs.remade (.step hstep) hnew hl' with
  | made hold _ => cases hid.symm.trans hold
  | kept _ hk =>
    obtain rfl : l = l' := Option.some.inj (hl.symm.trans hk)
    exact .inl hl'
  | changed _ hk he hsized =>
    cases hl.symm.trans hk
    exact .inr ⟨_, _, l', hsized, he, hl'⟩

theorem layout?_of_moves (hs : Leads settings (start db) s) (hid : s.isNewType id = true)
    (hl : s.db.layout? id = some l) (hmoves : Relation.ReflTransGen (Step settings) s t) :
    t.isNewType id = true ∧ ∃ l', t.db.layout? id = some l' ∧ l.size ≤ l'.size := by
  induction hmoves with
  | refl => exact ⟨hid, l, hl, Nat.le_refl _⟩
  | @tail u v hsu hstep ih =>
    obtain ⟨hidu, k, hk, hsize⟩ := ih
    have hu := sound_of_leads (hs.trans (leads_of_moves hsu))
    obtain ⟨hidv, hsame | ⟨e, answer, k', _, he, hk'⟩⟩ := hu.layout?_of_step hidu hk hstep
    · exact ⟨hidv, k, hsame, hsize⟩
    · obtain ⟨_, hgrow⟩ := LayoutEdit.perform_wellFormed (hu.wellFormed hidu hk) he
      exact ⟨hidv, k', hk', Nat.le_trans hsize hgrow⟩

theorem isNewType_of_moves (hs : Leads settings (start db) s) (hid : s.isNewType id = true)
    (hmoves : Relation.ReflTransGen (Step settings) s t) : t.isNewType id = true := by
  obtain ⟨l, hl⟩ := (sound_of_leads hs).layout?_of_isNewType hid
  exact (layout?_of_moves hs hid hl hmoves).1

theorem Sound.covers_or_narrows (hs : s.Sound) (hn : s.Covers id n)
    (hstep : Step settings s t) : t.Covers id n ∨ Narrows id n s t := by
  obtain ⟨hid, l, hl, hcovers⟩ := hn
  obtain ⟨hid', hsame | ⟨e, answer, l', hsized, he, hl'⟩⟩ := hs.layout?_of_step hid hl hstep
  · exact .inl ⟨hid', l, hsame, hcovers⟩
  · rcases LayoutEdit.covers_or_narrows (hs.wellFormed hid hl) he hcovers with
      hcovers' | ⟨a, m, type, size, rfl, hm, hlt, hm', hle⟩
    · exact .inl ⟨hid', l', hl', hcovers'⟩
    · exact .inr ⟨l, l', a, m, _, hl, hl', hm, hlt, hm', hle, hsized⟩

theorem Uncovers.not_covers {trail : List Session} (h : Uncovers id n (s :: trail)) :
    ¬ (trail.getLastD s).Covers id n := by
  obtain ⟨past, u, v, rest, hsplit, _, _, hleft⟩ := h
  have hlast : trail.getLastD s = rest.getLastD v := by
    have hsome := congrArg List.getLast? hsplit
    simpa [List.getLast?_append, List.getLast?_cons] using hsome
  rw [hlast]
  exact hleft _ List.getLastD_mem_cons

/-- What was covered on the way is covered in the end, unless the member around it was narrowed. -/
theorem covers_iff_not_uncovers {trail : List Session} (hs : Leads settings (start db) s)
    (hchain : (s :: trail).IsChain (Relation.ReflGen (Step settings)))
    (hmeets : s.Meets (·.Covers id n) trail) :
    (trail.getLastD s).Covers id n ↔ ¬ Uncovers id n (s :: trail) := by
  refine ⟨fun hlast huncovers => huncovers.not_covers hlast, fun hkept => ?_⟩
  rcases Infer.last_or_left s trail (·.Covers id n) with
    hlast | hnone | ⟨past, u, v, rest, hsplit, hu, hleft⟩
  · exact hlast
  · obtain ⟨u, hmem, hu⟩ := hmeets
    exact absurd hu (hnone u hmem)
  · refine absurd ⟨past, u, v, rest, hsplit, hu, ?_, hleft⟩ hkept
    have hsound : u.Sound := by
      refine sound_of_leads (hs.trans (leads_of_moves (Infer.reaches_of_mem hchain ?_)))
      rw [hsplit]
      simp
    have huv := List.isChain_iff_forall_rel_of_append_cons_cons.1 hchain hsplit
    have hv := hleft v List.mem_cons_self
    cases huv with
    | refl => exact absurd hu hv
    | single hstep => exact (hsound.covers_or_narrows hu hstep).resolve_left hv

theorem Covers.lt_size (hn : s.Covers id n) (hs : Leads settings (start db) s)
    (hmoves : Relation.ReflTransGen (Step settings) s t) (hl : t.db.layout? id = some l) :
    n < l.size := by
  obtain ⟨hid, k, hk, hcovers⟩ := hn
  have hlt := ((sound_of_leads hs).wellFormed hid hk).lt_size_of_covers hcovers
  obtain ⟨_, l', hl', hsize⟩ := layout?_of_moves hs hid hk hmoves
  obtain rfl : l' = l := Option.some.inj (hl'.symm.trans hl)
  exact Nat.lt_of_lt_of_le hlt hsize

end Session
end TypeRecovery
