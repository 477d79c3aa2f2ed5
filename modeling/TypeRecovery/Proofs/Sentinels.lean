import TypeRecovery.Proofs.Coverage

/-!
# Members that make way

The sentinel that marks the end of a struct makes way for a member that needs its byte. What counts
as the sentinel is told by its place and its size, so a member of one byte that was given a type is
taken for it as well, as long as it ends the struct. `LayoutEdit.Entry` says once what a change can
do to the member at an offset; that a member is lost in no other way follows.
-/
namespace TypeRecovery

namespace Layout

variable {l l' : Layout} {offset size o : Nat} {type : Ty}

/-- A member of that type and size starts at the offset. -/
def HasMember (l : Layout) (o : Nat) (type : Ty) (size : Nat) : Prop :=
  ∃ m, l.members.get? o = some m ∧ m.type = type ∧ m.size = size

theorem WellFormed.get?_setMemberType (hl : l.WellFormed)
    (h : (Layout.setMemberType offset type size).run.run l = .ok (.ok (), l')) :
    (∃ m, l.members.get? offset = some m ∧
      l'.members.get? offset = some { m with type, size }) ∧
    ∀ {o}, o ≠ offset → l'.members.get? o =
      if offset < o ∧ o < offset + size then none else l.members.get? o := by
  rcases setMemberType_eq_ok h with ⟨_, hok, _⟩ | ⟨_, hstart, _, cleared, hclear, rfl⟩
  · cases hok
  obtain ⟨m, hm, hend⟩ := hl.get?_of_memberStart hstart
  have hpos := m.width_pos
  have hmax : Word.bound = Word.max + 1 := rfl
  have hword : offset < Word.max := by omega
  obtain ⟨_, _, hroom⟩ := hl.clearFor hword hclear
  have hkept := (get?_clearFor hword hclear).trans hm
  have hget : ∀ b, (cleared.retype offset type size).members.get? b =
      if b = offset then some { m with type, size } else cleared.members.get? b := by
    intro b
    rw [Layout.retype, hkept, Table.get?_insert]
  refine ⟨⟨m, hm, (hget offset).trans (if_pos rfl)⟩, ?_⟩
  intro o hne
  refine (hget o).trans ((if_neg hne).trans ?_)
  split
  case isTrue hin =>
    cases hcleared : cleared.members.get? o with
    | none => rfl
    | some n =>
      have hfits := hroom hcleared hin.1
      omega
  case isFalse hout =>
    rcases clearFor_eq_ok hclear with ⟨_, hok, _⟩ | ⟨_, rfl, _⟩ | ⟨next, _, hnext, hlt, _, rfl⟩
    · cases hok
    · rfl
    · obtain ⟨_, hafter, _⟩ := of_nextMember_eq_some hnext hword
      have hother : o ≠ next := by
        rintro rfl
        exact hout ⟨hafter, hlt⟩
      rw [Table.get?_erase, if_neg hother]

theorem WellFormed.ends_of_overrun (hl : l.WellFormed)
    (h : (Layout.setMemberType offset type size).run.run l = .ok (.ok (), l')) {m : Member}
    (hm : l.members.get? o = some m) (hafter : offset < o) (hlt : o < offset + size) :
    m.size = 1 ∧ o + 1 = l.size := by
  rcases setMemberType_eq_ok h with ⟨_, hok, _⟩ | ⟨_, hstart, _, cleared, hclear, _⟩
  · cases hok
  obtain ⟨first, _, hend⟩ := hl.get?_of_memberStart hstart
  have hpos := first.width_pos
  have hmax : Word.bound = Word.max + 1 := rfl
  have hword : offset < Word.max := by omega
  rcases clearFor_eq_ok hclear with ⟨_, hok, _⟩ | ⟨_, _, hfits⟩ | ⟨next, _, hnext, _, hsentinel, _⟩
  · cases hok
  · cases hnext : l.nextMember offset with
    | none =>
      have hle := of_nextMember_eq_none hnext hword hm
      omega
    | some next =>
      have hfirst := (of_nextMember_eq_some hnext hword).2.2 hm hafter
      have hstop := hfits hnext
      omega
  · have hfirst := (of_nextMember_eq_some hnext hword).2.2 hm hafter
    have hlast := hl.le_of_isTrailingSentinel hsentinel hm
    obtain rfl : o = next := by omega
    obtain ⟨k, hk, hone, hsize⟩ := isTrailingSentinel_eq_true hsentinel
    obtain rfl : m = k := Option.some.inj (hm.symm.trans hk)
    exact ⟨hone, hsize⟩

end Layout

namespace LayoutEdit

variable {e : LayoutEdit} {l l' last : Layout} {answer : Except Refusal Answer}
  {answers : List (Except Refusal Answer)} {es : List LayoutEdit} {o size : Nat} {type : Ty}

/-- The change was accepted, and gave the member at the offset a type. -/
def retypes (o : Nat) : LayoutEdit × Except Refusal Answer → Bool
  | (setMemberType start _ _, .ok _) => start == o
  | _ => false

/-- The change was accepted, and gave a member that starts before the offset a type that reaches
past it. -/
def overruns (o : Nat) : LayoutEdit × Except Refusal Answer → Bool
  | (setMemberType start _ size, .ok _) => start < o && o < start + size
  | _ => false

/-- What a change and its answer say about the member at an offset of the layout `l`: before it and
after it. -/
inductive Entry (l : Layout) (o : Nat) : LayoutEdit × Except Refusal Answer → Option Member →
    Option Member → Prop
  | absent {p : LayoutEdit × Except Refusal Answer} : Entry l o p none none
  | kept {p : LayoutEdit × Except Refusal Answer} (m : Member) (comment : Option String)
      (hretypes : retypes o p = false) (hoverruns : overruns o p = false) :
      Entry l o p (some m) (some { m with comment })
  | typed (m : Member) (type : Ty) (size : Nat) :
      Entry l o (.setMemberType o type size, .ok .done) (some m) (some { m with type, size })
  | absorbed {p : LayoutEdit × Except Refusal Answer} (m : Member) (hoverruns : overruns o p = true)
      (hone : m.size = 1) (hend : o + 1 = l.size) : Entry l o p (some m) none
  | added : Entry l o (.addMember o, .ok (.changed true)) none (some (.placeholder o))
  | marked (hsize : l.size ≤ o) :
      Entry l o (.maximizeSize (o + 1), .ok (.changed true)) none (some (.sentinel o))

theorem Entry.same {p : LayoutEdit × Except Refusal Answer} (hretypes : retypes o p = false)
    (hoverruns : overruns o p = false) (entry : Option Member) : Entry l o p entry entry := by
  cases entry with
  | none => exact .absent
  | some m => exact .kept m m.comment hretypes hoverruns

theorem entry_of_addMember {offset : Nat} (hl : l.WellFormed)
    (h : (addMember offset).perform.run.run l = .ok (answer, l')) :
    Entry l o (addMember offset, answer) (l.members.get? o) (l'.members.get? o) := by
  obtain ⟨_, hadd, rfl⟩ := Edit.map_eq_ok.1 h
  rcases Layout.addMember_eq_ok hadd with ⟨_, _, rfl⟩ | ⟨rfl, hcovers, _, rfl⟩
  · exact .same rfl rfl _
  · by_cases heq : o = offset
    · subst heq
      have hnone : l.members.get? o = none := by
        cases hm : l.members.get? o with
        | none => rfl
        | some m =>
          have hstop := hl.stop_le_of_not_covers hcovers hm (Nat.le_refl o)
          have hpos := m.width_pos
          omega
      rw [hnone, Table.get?_insert_self]
      exact .added
    · rw [Table.get?_insert_of_ne _ heq]
      exact .same rfl rfl _

theorem entry_of_setMemberType {offset : Nat} (hl : l.WellFormed)
    (h : (setMemberType offset type size).perform.run.run l = .ok (answer, l')) :
    Entry l o (setMemberType offset type size, answer) (l.members.get? o) (l'.members.get? o) := by
  obtain ⟨result, hset, rfl⟩ := Edit.map_eq_ok.1 h
  cases result with
  | error cause =>
    rcases Layout.setMemberType_eq_ok hset with ⟨_, _, rfl⟩ | ⟨hok, _⟩
    · exact .same rfl rfl _
    · cases hok
  | ok _ =>
    obtain ⟨⟨m, hm, hm'⟩, hother⟩ := hl.get?_setMemberType hset
    change Entry l o (setMemberType offset type size, .ok .done) _ _
    by_cases heq : o = offset
    · subst heq
      rw [hm, hm']
      exact .typed m type size
    · rw [hother heq]
      split
      case isTrue hin =>
        cases hn : l.members.get? o with
        | none => exact .absent
        | some n =>
          obtain ⟨hone, hend⟩ := hl.ends_of_overrun hset hn hin.1 hin.2
          exact .absorbed n (by simp [overruns, hin]) hone hend
      case isFalse hout =>
        have hne : offset ≠ o := fun h => heq h.symm
        exact .same (by simpa [retypes] using hne) (by simpa [overruns] using hout) _

theorem entry_of_maximizeSize (hl : l.WellFormed)
    (h : (maximizeSize size).perform.run.run l = .ok (answer, l')) :
    Entry l o (maximizeSize size, answer) (l.members.get? o) (l'.members.get? o) := by
  obtain ⟨_, hgrow, rfl⟩ := Edit.map_eq_ok.1 h
  rcases Layout.maximizeSize_eq_ok hgrow with ⟨_, rfl⟩ | ⟨rfl, hlt, rfl | rfl⟩
  · exact .same rfl rfl _
  · exact .same rfl rfl _
  · by_cases heq : o = size - 1
    · have hnone : l.members.get? o = none := by
        cases hm : l.members.get? o with
        | none => rfl
        | some m =>
          have hin := hl.inside hm
          have hpos := m.width_pos
          omega
      obtain rfl : size = o + 1 := by omega
      rw [hnone, Nat.add_sub_cancel, Table.get?_insert_self]
      exact .marked (Nat.le_of_lt_succ hlt)
    · rw [Table.get?_insert_of_ne _ heq]
      exact .same rfl rfl _

theorem entry_of_setMemberComment {offset : Nat} {comment : String}
    (h : (setMemberComment offset comment).perform.run.run l = .ok (answer, l')) :
    Entry l o (setMemberComment offset comment, answer) (l.members.get? o)
      (l'.members.get? o) := by
  obtain ⟨_, hset, rfl⟩ := Edit.map_eq_ok.1 h
  rcases Layout.setMemberComment_eq_ok hset with ⟨_, _, rfl⟩ | ⟨m, rfl, hm, rfl⟩
  · exact .same rfl rfl _
  · by_cases heq : o = offset
    · subst heq
      rw [hm, Table.get?_insert_self]
      exact .kept m (some comment) rfl rfl
    · rw [Table.get?_insert_of_ne _ heq]
      exact .same rfl rfl _

theorem entry_of_perform (hl : l.WellFormed) (h : e.perform.run.run l = .ok (answer, l'))
    (o : Nat) : Entry l o (e, answer) (l.members.get? o) (l'.members.get? o) := by
  cases e with
  | addMember offset => exact entry_of_addMember hl h
  | setMemberType offset type size => exact entry_of_setMemberType hl h
  | maximizeSize size => exact entry_of_maximizeSize hl h
  | setMemberComment offset comment => exact entry_of_setMemberComment h

theorem size_of_run (hl : l.WellFormed) (hin : o < l.size)
    (hnone : ∀ m, l.members.get? o = some m → m.size = 0)
    (h : Edit.runAll perform l es = .ok (answers, last))
    (hretypes : ∀ p ∈ es.zip answers, retypes o p = false) :
    ∀ m, last.members.get? o = some m → m.size = 0 := by
  induction es generalizing l answers with
  | nil =>
    obtain ⟨_, rfl⟩ := Prod.mk.inj (Except.ok.inj h)
    exact hnone
  | cons e rest ih =>
    obtain ⟨answer, l', more, he, hrest, rfl⟩ := Edit.runAll_cons_eq_ok.1 h
    rw [List.zip_cons_cons] at hretypes
    obtain ⟨hl', hgrow⟩ := perform_wellFormed hl he
    refine ih hl' (Nat.lt_of_lt_of_le hin hgrow) ?_ hrest
      fun p hp => hretypes p (List.mem_cons_of_mem _ hp)
    intro m hm
    have hentry := entry_of_perform hl he o
    have hhead := hretypes _ List.mem_cons_self
    rw [hm] at hentry
    generalize hbefore : l.members.get? o = before at hentry
    cases hentry with
    | kept m comment => exact hnone m hbefore
    | typed m type size => simp [retypes] at hhead
    | added => rfl
    | marked hsize => exact absurd hin (Nat.not_lt.2 hsize)

/-- A member that was given a type and a size is there until a change runs over it, and is then gone
for good. Only a member of one byte can be run over. -/
theorem hasMember_of_run (hl : l.WellFormed) (hm : l.HasMember o type size)
    (h : Edit.runAll perform l es = .ok (answers, last))
    (hretypes : ∀ p ∈ es.zip answers, retypes o p = false) :
    (last.HasMember o type size ∧ ∀ p ∈ es.zip answers, overruns o p = false) ∨
    (¬ last.HasMember o type size ∧ size = 1 ∧ ∃ p ∈ es.zip answers, overruns o p = true) := by
  induction es generalizing l answers with
  | nil =>
    obtain ⟨rfl, rfl⟩ := Prod.mk.inj (Except.ok.inj h)
    exact .inl ⟨hm, by simp⟩
  | cons e rest ih =>
    obtain ⟨answer, l', more, he, hrest, rfl⟩ := Edit.runAll_cons_eq_ok.1 h
    rw [List.zip_cons_cons] at hretypes ⊢
    obtain ⟨hl', hgrow⟩ := perform_wellFormed hl he
    have hlater : ∀ p ∈ rest.zip more, retypes o p = false :=
      fun p hp => hretypes p (List.mem_cons_of_mem _ hp)
    obtain ⟨m, hget, htype, hsize⟩ := hm
    have hinside := hl.inside hget
    have hwidth := m.width_pos
    have hentry := entry_of_perform hl he o
    have hhead := hretypes _ List.mem_cons_self
    rw [hget] at hentry
    generalize hafter : l'.members.get? o = after at hentry
    cases hentry with
    | kept _ comment _ hkept =>
      rcases ih hl' ⟨_, hafter, htype, hsize⟩ hrest hlater with ⟨hlast, hnot⟩ |
          ⟨hlost, hone, p, hp, ho⟩
      · refine .inl ⟨hlast, ?_⟩
        intro p hp
        rcases List.mem_cons.1 hp with rfl | hp
        · exact hkept
        · exact hnot p hp
      · exact .inr ⟨hlost, hone, p, List.mem_cons_of_mem _ hp, ho⟩
    | typed _ type size => simp [retypes] at hhead
    | absorbed _ hoverruns hone =>
      refine .inr ⟨?_, by omega, _, List.mem_cons_self, hoverruns⟩
      rintro ⟨n, hn, _, hnsize⟩
      have hzero := size_of_run hl' (by omega) (by simp [hafter]) hrest hlater n hn
      omega

/-- The last accepted change in a history that made the member at the offset what it is: it gave the
member its type, or it marked the end of the struct with it. -/
def MadeBy (history : List (LayoutEdit × Except Refusal Answer)) (o : Nat)
    (p : LayoutEdit × Except Refusal Answer) : Prop :=
  ∃ before after, history = before ++ p :: after ∧ ∀ q ∈ after, retypes o q = false

theorem madeBy_of_run (hl : l.WellFormed) (h : Edit.runAll perform l es = .ok (answers, last))
    {m : Member} (hm : last.members.get? o = some m) (hpos : 1 ≤ m.size) :
    (l.HasMember o m.type m.size ∧ ∀ p ∈ es.zip answers, retypes o p = false) ∨
    MadeBy (es.zip answers) o (.setMemberType o m.type m.size, .ok .done) ∨
    (MadeBy (es.zip answers) o (.maximizeSize (o + 1), .ok (.changed true)) ∧ m.type = .uint 1 ∧
      m.size = 1) := by
  induction es generalizing l answers with
  | nil =>
    obtain ⟨rfl, rfl⟩ := Prod.mk.inj (Except.ok.inj h)
    exact .inl ⟨⟨m, hm, rfl, rfl⟩, by simp⟩
  | cons e rest ih =>
    obtain ⟨answer, l', more, he, hrest, rfl⟩ := Edit.runAll_cons_eq_ok.1 h
    rw [List.zip_cons_cons]
    have hearlier : ∀ {p}, MadeBy (rest.zip more) o p →
        MadeBy ((e, answer) :: rest.zip more) o p := by
      rintro p ⟨before, after, hsplit, hafter⟩
      exact ⟨(e, answer) :: before, after, by rw [hsplit]; rfl, hafter⟩
    rcases ih (perform_wellFormed hl he).1 hrest with ⟨⟨n, hn, htype, hsize⟩, hlater⟩ | hmade |
        ⟨hmade, hmarked⟩
    · -- the member is as the first change left it
      have hentry := entry_of_perform hl he o
      rw [hn] at hentry
      generalize hbefore : l.members.get? o = before at hentry
      cases hentry with
      | kept k comment hkept =>
        refine .inl ⟨⟨k, hbefore, htype, hsize⟩, ?_⟩
        intro p hp
        rcases List.mem_cons.1 hp with rfl | hp
        · exact hkept
        · exact hlater p hp
      | typed k type size =>
        subst htype hsize
        exact .inr (.inl ⟨[], rest.zip more, rfl, hlater⟩)
      | added =>
        simp only [Member.placeholder] at hsize
        omega
      | marked =>
        exact .inr (.inr ⟨⟨[], rest.zip more, rfl, hlater⟩, htype.symm, hsize.symm⟩)
    · exact .inr (.inl (hearlier hmade))
    · exact .inr (.inr ⟨hearlier hmade, hmarked⟩)

/-- In every run of changes to a new layout that stays within machine words, a member that was given
a type and a size keeps both until it is given others, unless a change that is accepted runs over
it; and then its size is one byte. In general a member disappears only when it is run over while it
is one byte wide and ends the struct. Such a member is the sentinel that marked the end, and has not
been given a type since, or else a member that was last given a type of one byte. -/
theorem typed_members_last (id : StructId) (name : String) (es : List LayoutEdit)
    (answers : List (Except Refusal Answer)) (l : Layout)
    (h : Edit.runAll perform { id, name } es = .ok (answers, l)) :
    (∀ o type size typed more answers' last,
      (setMemberType o type size).perform.run.run l = .ok (.ok .done, typed) →
      Edit.runAll perform typed more = .ok (answers', last) →
      (∀ p ∈ more.zip answers', retypes o p = false) →
        (last.HasMember o type size ↔ ∀ p ∈ more.zip answers', overruns o p = false) ∧
        ((∃ p ∈ more.zip answers', overruns o p = true) → size = 1)) ∧
    ∀ o m e answer l', l.members.get? o = some m → e.perform.run.run l = .ok (answer, l') →
      l'.members.get? o = none →
        overruns o (e, answer) = true ∧ m.size = 1 ∧ o + 1 = l.size ∧
        (MadeBy (es.zip answers) o (.maximizeSize (o + 1), .ok (.changed true)) ∨
          MadeBy (es.zip answers) o (.setMemberType o m.type 1, .ok .done)) := by
  obtain ⟨hl, _⟩ := run_wellFormed (Layout.wellFormed_empty id name) h
  refine ⟨?_, ?_⟩
  · intro o type size typed more answers' last hset hmore hretypes
    obtain ⟨htyped, _⟩ := perform_wellFormed hl hset
    have hmember : typed.HasMember o type size := by
      obtain ⟨result, hresult, hanswer⟩ := Edit.map_eq_ok.1 hset
      cases result with
      | error cause => cases hanswer
      | ok _ =>
        obtain ⟨⟨m, _, hm⟩, _⟩ := hl.get?_setMemberType hresult
        exact ⟨_, hm, rfl, rfl⟩
    rcases hasMember_of_run htyped hmember hmore hretypes with ⟨hlast, hnot⟩ |
        ⟨hlost, hone, p, hp, ho⟩
    · refine ⟨⟨fun _ => hnot, fun _ => hlast⟩, ?_⟩
      rintro ⟨p, hp, ho⟩
      rw [hnot p hp] at ho
      cases ho
    · refine ⟨⟨fun hlast => absurd hlast hlost, fun hnot => ?_⟩, fun _ => hone⟩
      rw [hnot p hp] at ho
      cases ho
  · intro o m e answer l' hm he hgone
    have hentry := entry_of_perform hl he o
    rw [hm, hgone] at hentry
    cases hentry with
    | absorbed _ hoverruns hone hend =>
      refine ⟨hoverruns, hone, hend, ?_⟩
      have hnew := Layout.wellFormed_empty id name
      rcases madeBy_of_run hnew h hm (by omega) with ⟨⟨n, hn, _⟩, _⟩ | hmade | ⟨hmade, _⟩
      · cases hn
      · rw [hone] at hmade
        exact .inr hmade
      · exact .inl hmade

/-- A member of eight bytes keeps its type while the sentinel behind it makes way for another
member, and while changes at its own offset and over it are refused. -/
theorem typed_members_last_refused :
    ∃ l typed last, Edit.runAll perform { id := ⟨3⟩, name := "s" } [addMember 0, addMember 8] =
        .ok ([.ok (.changed true), .ok (.changed true)], l) ∧
      (setMemberType 0 (.int 8 true) 8).perform.run.run l = .ok (.ok .done, typed) ∧
      Edit.runAll perform typed [maximizeSize 16, setMemberType 8 (.int 8 true) 8,
          setMemberType 0 (.int 16 true) 16, setMemberType 4 (.int 4 true) 4] =
        .ok ([.ok (.changed true), .ok .done, .error (.memberOverlap ⟨3⟩ 0 16 8),
          .error (.midMember ⟨3⟩ 4 0)], last) ∧
      last.HasMember 0 (.int 8 true) 8 :=
  ⟨_, _, _, rfl, rfl, rfl, (((typed_members_last ⟨3⟩ "s" [addMember 0, addMember 8] _ _ rfl).1
    0 (.int 8 true) 8 _ [maximizeSize 16, setMemberType 8 (.int 8 true) 8,
      setMemberType 0 (.int 16 true) 16, setMemberType 4 (.int 4 true) 4] _ _ rfl rfl
    (by decide)).1).2 (by decide)⟩

/-- A member of one byte that was given a type, and that no call marked as the end of the struct,
makes way for the member before it. -/
theorem last_byte_member_absorbed :
    ∃ l, Edit.runAll perform { id := ⟨3⟩, name := "s" }
        [addMember 0, addMember 7, setMemberType 7 (.int 1 true) 1,
          setMemberType 0 (.int 8 true) 8] =
      .ok ([.ok (.changed true), .ok (.changed true), .ok .done, .ok .done], l) ∧
      l.members.get? 7 = none ∧ l.members.size = 1 ∧ l.size = 8 :=
  ⟨_, rfl, rfl, rfl, rfl⟩

end LayoutEdit
end TypeRecovery
