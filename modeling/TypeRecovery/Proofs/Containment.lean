import TypeRecovery.Proofs.MemberSizes
import TypeRecovery.Proofs.Rests

/-!
# Structs that contain structs

A struct contains another one by value if a member is of that struct, or of arrays of it. No turn
of a session closes a circle of such structs but one: a member is placed in a struct of the run
although its type contains that struct already. As long as there is no circle, every descent into
nested structs ends.
-/
namespace TypeRecovery

section Relations

open Relation (TransGen ReflTransGen)

variable {α : Type} {R R' : α → α → Prop} {a x y : α}

/-- Steps are added that lead away from one point to where there is no way back. -/
theorem transGen_of_added (hstep : ∀ {x y}, R' x y → R x y ∨ (x = a ∧ ¬ ReflTransGen R y a))
    (h : TransGen R' x y) :
    TransGen R x y ∨ ReflTransGen R x a ∧ ∃ b, ¬ ReflTransGen R b a ∧ ReflTransGen R b y := by
  induction h with
  | single hxy =>
    rcases hstep hxy with hold | ⟨rfl, hback⟩
    · exact .inl (.single hold)
    · exact .inr ⟨.refl, _, hback, .refl⟩
  | tail hxy hyz ih =>
    rcases hstep hyz with hold | ⟨rfl, hback⟩
    · rcases ih with hpath | ⟨hxa, b, hb, hby⟩
      · exact .inl (hpath.tail hold)
      · exact .inr ⟨hxa, b, hb, hby.tail hold⟩
    · rcases ih with hpath | ⟨hxa, b, hb, hby⟩
      · exact .inr ⟨hpath.to_reflTransGen, _, hback, .refl⟩
      · -- the added steps cannot be taken twice
        exact absurd hby hb

theorem not_circular_of_added (hstep : ∀ {x y}, R' x y → R x y ∨ (x = a ∧ ¬ ReflTransGen R y a))
    (h : ∀ x, ¬ TransGen R x x) (x : α) : ¬ TransGen R' x x := by
  intro hcircle
  rcases transGen_of_added hstep hcircle with hold | ⟨hxa, b, hb, hbx⟩
  · exact h x hold
  · exact hb (hbx.trans hxa)

end Relations

namespace TypeStore

open Relation (TransGen ReflTransGen)

variable {σ τ : Type} [TypeStore σ] [TypeStore τ] {s : σ} {t : τ}

/-- A struct contains another one by value. -/
def Holds (s : σ) (outer inner : StructId) : Prop :=
  ∃ l a m, layout? s outer = some l ∧ l.members.get? a = some m ∧
    m.type.embedded? = some inner

/-- No struct contains itself, not even through others. -/
def Acyclic (s : σ) : Prop := ∀ id, ¬ TransGen (Holds s) id id

/-- Which struct contains which, listed. -/
def containment (s : σ) : List (StructId × StructId) :=
  (structIds s).flatMap fun outer => match layout? s outer with
    | none => []
    | some l => (l.members.values.filterMap (·.type.embedded?)).map (outer, ·)

theorem holds_iff_mem (hs : Lists s) {outer inner : StructId} :
    Holds s outer inner ↔ (outer, inner) ∈ containment s := by
  constructor
  · rintro ⟨l, a, m, hl, hm, hinner⟩
    refine List.mem_flatMap.2 ⟨outer, hs hl, ?_⟩
    have hvalue : m ∈ l.members.values := List.mem_map.2 ⟨(a, m), Table.get?_eq_some_iff.1 hm, rfl⟩
    rw [hl]
    exact List.mem_map.2 ⟨inner, List.mem_filterMap.2 ⟨m, hvalue, hinner⟩, rfl⟩
  · intro h
    obtain ⟨id, _, hlisted⟩ := List.mem_flatMap.1 h
    split at hlisted
    case h_1 => cases hlisted
    case h_2 l hl =>
      obtain ⟨_, hnested, hpair⟩ := List.mem_map.1 hlisted
      cases hpair
      obtain ⟨_, hvalue, hinner⟩ := List.mem_filterMap.1 hnested
      obtain ⟨⟨a, m⟩, ha, rfl⟩ := List.mem_map.1 hvalue
      exact ⟨l, a, m, hl, Table.get?_eq_some_iff.2 ha, hinner⟩

theorem acyclic_of_lt (hs : Lists s) (h : ∀ p ∈ containment s, p.1.index < p.2.index) :
    Acyclic s := by
  have hlt : ∀ {outer inner}, TransGen (Holds s) outer inner → outer.index < inner.index := by
    intro outer inner hreaches
    induction hreaches with
    | single hstep => exact h _ ((holds_iff_mem hs).1 hstep)
    | tail _ hstep ih => exact Nat.lt_trans ih (h _ ((holds_iff_mem hs).1 hstep))
  intro id hcircle
  exact Nat.lt_irrefl _ (hlt hcircle)

theorem Acyclic.of_layouts (h : Acyclic s) (hlayouts : ∀ {id l}, layout? t id = some l →
    (∀ a, l.members.get? a = none) ∨ layout? s id = some l) : Acyclic t := by
  intro id hcircle
  refine h id (TransGen.mono ?_ _ _ hcircle)
  rintro outer inner ⟨l, a, m, hl, hm, hinner⟩
  rcases hlayouts hl with hempty | hold
  · rw [hempty a] at hm
    cases hm
  · exact ⟨l, a, m, hold, hm, hinner⟩

theorem StartsWith.holds {outer inner : StructId} (h : StartsWith s outer inner) :
    Holds s outer inner := by
  obtain ⟨l, hl, hbegins⟩ := h
  obtain ⟨m, hm, hnested⟩ := List.mem_filterMap.1 hbegins
  obtain ⟨⟨a, _⟩, ha, rfl⟩ := List.mem_map.1 hm
  split at hnested
  case isFalse => cases hnested
  case isTrue =>
    exact ⟨l, a, _, hl, Table.get?_eq_some_iff.2 ha, Ty.embedded?_of_structId? hnested⟩

theorem Acyclic.not_cyclic (h : Acyclic s) : ¬ Cyclic (nesting s) := by
  intro hcyclic
  obtain ⟨id, hcircle⟩ := circle_of_cyclic hcyclic
  exact h id (TransGen.mono (fun _ _ => StartsWith.holds) _ _ hcircle)

end TypeStore

namespace Session

open TypeStore (Holds Acyclic)
open Relation (TransGen ReflTransGen)

variable {settings : Settings} {origin u v s t : Session}

/-- A member is placed in a struct of the run although its type contains that struct already. -/
inductive Closes (u : Session) : Session → Prop
  | place {id nested : StructId} {l l' : Layout} {offset size : Nat} {type : Ty}
      {answer : Except Refusal Answer} (hid : u.isNewType id = true)
      (hl : u.db.layout? id = some l)
      (hplace : (LayoutEdit.setMemberType offset type size).perform.run.run l = .ok (answer, l'))
      (htype : type.embedded? = some nested)
      (hheld : Holds (TypeStore.setLayout u.db id l') id nested)
      (hback : ReflTransGen (Holds u.db) nested id) :
      Closes u { u with db := TypeStore.setLayout u.db id l' }

theorem holds_of_setLayout {id outer inner : StructId} {l l' : Layout}
    (hl : u.db.layout? id = some l) (hne : outer ≠ id) :
    Holds (TypeStore.setLayout u.db id l') outer inner ↔ Holds u.db outer inner := by
  have hlayout : TypeStore.layout? (TypeStore.setLayout u.db id l') outer =
      TypeStore.layout? u.db outer := by
    have h := Overlay.layout?_setLayout hl l' outer
    rw [if_neg hne] at h
    exact h
  unfold Holds
  rw [hlayout]

theorem reaches_of_setLayout {id other : StructId} {l l' : Layout}
    (hl : u.db.layout? id = some l) (h : ReflTransGen (Holds u.db) other id) :
    ReflTransGen (Holds (TypeStore.setLayout u.db id l')) other id := by
  induction h using ReflTransGen.head_induction_on with
  | refl => exact .refl
  | @head x y hxy _ ih =>
    by_cases hx : x = id
    · subst hx
      exact .refl
    · exact ih.head ((holds_of_setLayout hl hx).2 hxy)

theorem Closes.not_acyclic (h : u.Closes v) : ¬ Acyclic v.db := by
  cases h with
  | @place id _ _ _ _ _ _ _ _ hl _ _ hheld hback =>
    intro hacyclic
    exact hacyclic id (TransGen.head' hheld (reaches_of_setLayout hl hback))

theorem acyclic_of_reshape (hu : Acyclic u.db) {id : StructId} {l l' : Layout} {e : LayoutEdit}
    {answer : Except Refusal Answer} (hid : u.isNewType id = true)
    (hl : u.db.layout? id = some l) (he : e.perform.run.run l = .ok (answer, l')) :
    Acyclic (TypeStore.setLayout u.db id l') ∨
      u.Closes { u with db := TypeStore.setLayout u.db id l' } := by
  by_cases hback : ∃ nested, Holds (TypeStore.setLayout u.db id l') id nested ∧
      ReflTransGen (Holds u.db) nested id
  · right
    obtain ⟨nested, hheld, hback⟩ := hback
    obtain ⟨k, a, m, hk, hm, htype⟩ := hheld
    have hk' := Overlay.layout?_setLayout hl l' id
    rw [if_pos rfl] at hk'
    have heq : k = l' := Option.some.inj (hk.symm.trans hk')
    subst heq
    rcases LayoutEdit.member_of_perform he hm with
      ⟨n, hn, hsame, _⟩ | hunknown | rfl | ⟨offset, rfl⟩
    · -- the struct contained itself before
      have hold : Holds u.db id nested := ⟨l, a, n, hl, hn, by rw [hsame]; exact htype⟩
      exact absurd (TransGen.head' hold hback) (hu id)
    · rw [hunknown] at htype
      cases htype
    · cases htype
    · exact .place hid hl he htype ⟨k, a, m, hk, hm, htype⟩ hback
  · left
    refine not_circular_of_added (a := id) ?_ hu
    intro x y hxy
    by_cases hx : x = id
    · subst hx
      exact .inr ⟨rfl, fun hyx => hback ⟨y, hxy, hyx⟩⟩
    · exact .inl ((holds_of_setLayout hl hx).1 hxy)

/-- There is no circle, neither in the overlay nor below it. -/
structure Contained (s : Session) : Prop where
  overlay : Acyclic s.db
  inner : Acyclic s.db.inner

theorem contained_start {db : Database} (h : Acyclic db) : (start db).Contained where
  overlay := h.of_layouts fun hl => .inr hl
  inner := h

theorem Contained.turn (h : s.Contained) (hs : s.Unwritten) (hturn : Turn settings s t) :
    t.Contained ∨ s.Closes t := by
  cases hturn with
  | step hstep =>
    cases hstep with
    | draft hdraft =>
      cases hdraft with
      | report _ => exact .inl ⟨h.overlay, h.inner⟩
      | retract _ => exact .inl ⟨h.overlay, h.inner⟩
      | create hcreate =>
        obtain ⟨rfl, rfl⟩ := Run.createStruct_eq_ok hcreate
        refine .inl ⟨h.overlay.of_layouts ?_, h.inner⟩
        intro id l hl
        simp only [TypeStore.layout?, Overlay.layout?, hs.deleted, Table.contains_empty,
          Bool.false_eq_true, if_false, Table.get?_insert] at hl ⊢
        split at hl
        · cases hl
          exact .inl fun _ => rfl
        · exact .inr hl
      | reshape e hid hl he hsized =>
        have hnew := hs.isNewType_of_provisional hid
        rcases acyclic_of_reshape h.overlay hnew hl he with hacyclic | hcloses
        · exact .inl ⟨hacyclic, h.inner⟩
        · exact .inr hcloses
    | _ => exact .inl ⟨h.overlay, h.inner⟩
  | handOver => exact .inl ⟨h.overlay, h.inner⟩
  | commit hcommit =>
    obtain ⟨rfl, _⟩ := hs.of_commit_eq_ok hcommit
    refine .inl (contained_start (h.overlay.of_layouts ?_))
    intro id l hl
    exact .inr ((hs.committed_structs id).symm.trans hl)
  | clear => exact .inl (contained_start h.inner)

/-- Along sessions that follow turn by turn there is no circle until one is closed. -/
theorem Contained.along {l : List Session} (h : s.Contained) (hs : s.Unwritten)
    (hl : (s :: l).IsChain (Relation.ReflGen (Turn settings)))
    (hopen : ∀ u v, [u, v] <:+: s :: l → ¬ u.Closes v) : ∀ t ∈ s :: l, t.Contained := by
  induction l generalizing s with
  | nil =>
    intro t ht
    rw [List.mem_singleton.1 ht]
    exact h
  | cons v rest ih =>
    obtain ⟨hsv, hrest⟩ := List.isChain_cons_cons.1 hl
    have hv : v.Contained ∧ v.Unwritten := by
      cases hsv with
      | refl => exact ⟨h, hs⟩
      | single hturn =>
        exact ⟨(h.turn hs hturn).resolve_right (hopen s v ⟨[], rest, rfl⟩), hs.turn hturn⟩
    have hall := ih hv.1 hv.2 hrest fun u w huw => hopen u w (List.infix_cons huw)
    exact List.forall_mem_cons.2 ⟨h, hall⟩

end Session

def Fault.IsOverflow (fault : Fault) : Prop := ∃ op, fault = .overflow op

instance : Fault.Overflows Fault.IsOverflow := ⟨fun op => ⟨op, rfl⟩⟩

theorem Chain.walk_ends {σ : Type} [TypeStore σ] {s : σ} (hs : TypeStore.Lists s)
    (h : TypeStore.Acyclic s) (chain : Chain) (start : Ty) :
    Checked.Stops Fault.IsOverflow (chain.walk s start).run :=
  Chain.stops_walk hs (fun hcyclic => absurd hcyclic h.not_cyclic) chain start

theorem Infer.addMemberType_ends {s : Session} (h : TypeStore.Acyclic s.db) (id : StructId)
    (offset : Nat) (type : Ty) :
    Checked.Stops Fault.IsOverflow ((Infer.addMemberType id offset type).run s) :=
  (endsAt_addMemberType (fun hcyclic => absurd hcyclic h.not_cyclic) id offset type).stops

namespace Operation

/-- Starting without a circle, the structs contain none in any session on the way, exactly as long as
no member is placed in a struct although its type contains that struct already. If that never
happens, the operations return or stop at an overflow. Over structs without a circle the walk along
a chain of uses and the merging of a member stop without a result at overflows only. -/
theorem containment_acyclic (c : Context) (db : Database) (hdb : TypeStore.Acyclic db)
    (ops : List Operation) :
    (∀ reached, reached <+: sessions c db ops →
      ((∀ t ∈ reached, TypeStore.Acyclic t.db) ↔
        ∀ u v, [u, v] <:+: reached → ¬ u.Closes v)) ∧
    ((∀ u v, [u, v] <:+: sessions c db ops → ¬ u.Closes v) →
      ∀ fault, (performAll c ops).run (Session.start db) = .error fault → fault.IsOverflow) ∧
    ∀ t ∈ sessions c db ops, TypeStore.Acyclic t.db →
      (∀ (chain : Chain) (start : Ty) (fault : Fault),
        (chain.walk t.db start).run = .error fault → fault.IsOverflow) ∧
      ∀ (id : StructId) (offset : Nat) (type : Ty) (fault : Fault),
        (Infer.addMemberType id offset type).run t = .error fault → fault.IsOverflow := by
  have hchain := isChain_sessions c db ops
  have hstart := Session.contained_start hdb
  have hunwritten := Session.unwritten_start db
  refine ⟨?_, ?_, ?_⟩
  · intro reached hreached
    constructor
    · intro hacyclic u v huv hcloses
      exact hcloses.not_acyclic (hacyclic v (huv.mem (by simp)))
    · intro hopen t ht
      cases reached with
      | nil => cases ht
      | cons s l =>
        obtain rfl : s = Session.start db := (List.cons_prefix_cons.1 hreached).1
        have hstretch := List.IsChain.prefix hchain hreached
        exact (hstart.along hunwritten hstretch hopen t ht).overlay
  · intro hopen fault hfault
    refine (fault_of_performAll hfault).resolve_right ?_
    rintro ⟨u, hu, hcyclic, _⟩
    exact (hstart.along hunwritten hchain hopen u hu).overlay.not_cyclic hcyclic
  · intro t _ hacyclic
    exact ⟨fun chain start => Chain.walk_ends t.db.lists hacyclic chain start,
      fun id offset type => Infer.addMemberType_ends hacyclic id offset type⟩

/-- One struct of the run is placed in another, and no circle is closed on the way. -/
theorem containment_acyclic_nested :
    let c : Context := { program := {}, settings := {} }
    let ops : List Operation := [.createStruct, .createStruct, .addMemberType ⟨1⟩ 0 (.int 4 true),
      .addMemberType ⟨0⟩ 0 (.struct ⟨1⟩)]
    TypeStore.Acyclic ({} : Database) ∧
    (∃ t ∈ sessions c {} ops, TypeStore.Holds t.db ⟨0⟩ ⟨1⟩) ∧
    (∀ t ∈ sessions c {} ops, TypeStore.Acyclic t.db) ∧
    (∀ u v, [u, v] <:+: sessions c {} ops → ¬ u.Closes v) ∧
    ∀ fault, (performAll c ops).run (Session.start {}) = .error fault → fault.IsOverflow := by
  intro c ops
  have hempty : TypeStore.Acyclic ({} : Database) := by
    intro id hcircle
    obtain ⟨_, ⟨_, _, _, hl, _⟩, _⟩ := Relation.TransGen.head'_iff.1 hcircle
    cases hl
  have hheld : ∃ t ∈ sessions c {} ops, (⟨0⟩, ⟨1⟩) ∈ TypeStore.containment t.db := by
    decide +kernel
  have hlater : ∀ t ∈ sessions c {} ops, ∀ p ∈ TypeStore.containment t.db,
      p.1.index < p.2.index := by
    decide +kernel
  have hacyclic : ∀ t ∈ sessions c {} ops, TypeStore.Acyclic t.db :=
    fun t ht => TypeStore.acyclic_of_lt t.db.lists (hlater t ht)
  obtain ⟨hcircles, hends, _⟩ := containment_acyclic c {} hempty ops
  have hopen := (hcircles _ List.prefix_rfl).1 hacyclic
  refine ⟨hempty, ?_, hacyclic, hopen, hends hopen⟩
  obtain ⟨t, ht, hlisted⟩ := hheld
  exact ⟨t, ht, (TypeStore.holds_iff_mem t.db.lists).2 hlisted⟩

/-- Nothing keeps a struct from being placed in itself. -/
theorem struct_placed_in_itself :
    let c : Context := { program := {}, settings := {} }
    let ops : List Operation := [.createStruct, .addMemberType ⟨0⟩ 0 (.int 4 true),
      .addMemberType ⟨0⟩ 4 (.struct ⟨0⟩)]
    ∃ replies s, (performAll c ops).run (Session.start {}) = .ok (replies, s) ∧
      TypeStore.Holds s.db ⟨0⟩ ⟨0⟩ ∧ ¬ TypeStore.Acyclic s.db := by
  intro c ops
  have heval : (do
      let found ← (performAll c ops).run (Session.start {})
      pure (TypeStore.containment found.2.db)) = (.ok [(⟨0⟩, ⟨0⟩)] : Checked _) := by
    decide +kernel
  obtain ⟨⟨replies, s⟩, hs, heval⟩ := Checked.bind_eq_ok.1 heval
  rw [Checked.pure_eq_ok] at heval
  have hholds : TypeStore.Holds s.db ⟨0⟩ ⟨0⟩ := by
    rw [TypeStore.holds_iff_mem s.db.lists, heval]
    simp
  exact ⟨replies, s, hs, hholds, fun hacyclic => hacyclic ⟨0⟩ (.single hholds)⟩

end Operation
end TypeRecovery
