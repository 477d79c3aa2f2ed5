import TypeRecovery.Proofs.Coverage
import TypeRecovery.Proofs.Trust

/-!
# Accesses to synthesized structs

Every use of a pointer that touches an offset of the object behind it is evidence for a member
there. When a variable turns out to point to a struct of the run, the evidence is merged into that
struct, so every such offset is covered at some point. `accesses_covered` says that it still is when
inference returns, unless in between the member around it was narrowed by other evidence.
-/
namespace TypeRecovery

/-- The offset of the object behind a pointer that is touched: used as a whole, pointed to or
followed further. -/
def Chain.access? (c : Chain) : Option Nat :=
  match c.shape with
  | .member offset => some offset
  | .interior offset => some offset
  | .through offset => some offset
  | .value => none
  | .notPointer => none

namespace Uses

def chains (u : Uses) : List Chain :=
  u.reads.map (·.chain) ++ u.writes.map (·.chain) ++ u.casts.map (·.chain)

/-- The offsets that are touched. -/
def accesses (u : Uses) : List Nat := u.chains.filterMap Chain.access?

/-- The same uses, but for the types that are filled in. -/
structure Traces (u v : Uses) : Prop where
  reads : v.reads = u.reads
  writes : v.writes.map (·.chain) = u.writes.map (·.chain)
  casts : v.casts.map (·.chain) = u.casts.map (·.chain)

theorem Traces.accesses_eq {u v : Uses} (h : u.Traces v) : v.accesses = u.accesses := by
  unfold accesses chains
  rw [h.reads, h.writes, h.casts]

theorem mem_accesses {u : Uses} {n : Nat} : n ∈ u.accesses ↔
    (∃ r ∈ u.reads, r.chain.access? = some n) ∨ (∃ w ∈ u.writes, w.chain.access? = some n) ∨
      ∃ k ∈ u.casts, k.chain.access? = some n := by
  simp [accesses, chains]

end Uses

namespace Context

variable (c : Context)

/-- The bodies in which uses of a variable are looked for. -/
def usingBodies (var : Variable) : List FunctionBody :=
  (c.program.usersOf var).filterMap c.program.function?

/-- The offsets that the uses of a variable touch. -/
def accesses (var : Variable) : List Nat :=
  (c.usingBodies var).flatMap fun body => (body.usesOf var).accesses

end Context

/-- A struct of the run is at hand in a session that is on the way of a run. -/
def Session.Building (c : Context) (db : Database) (id : StructId) (s : Session) : Prop :=
  Leads c.settings (start db) s ∧ s.isNewType id = true

theorem Session.Building.moves {c : Context} {db : Database} {id : StructId} {s t : Session}
    (h : Building c db id s) (hst : Relation.ReflTransGen (Step c.settings) s t) :
    Building c db id t :=
  ⟨h.1.trans (leads_of_moves hst), isNewType_of_moves h.1 h.2 hst⟩

namespace Infer

open Session

variable {c : Context} {db : Database} {s : Session} {id : StructId} {n : Nat}

theorem yields_addMember (hs : s.Sound) (hid : s.isNewType id = true) :
    Yields s (edit (Overlay.provisional id (TypeStore.addMember id n))) fun _ t =>
      t.Covers id n := by
  refine (ends_edit fun _ _ _ => trivial).imp ?_
  rintro r t ⟨hrun, _, newTypes, _, hkept, rfl⟩
  have hown := hs.isProvisional_of_isNewType hid
  simp only [Overlay.provisional, Edit.run_get_bind, hown, if_true] at hrun
  rcases TypeStore.editLayout_eq_ok hrun with ⟨hnone, _⟩ | ⟨l, l', hl, hadd, ht⟩
  · obtain ⟨l, hl⟩ := hs.layout?_of_isNewType hid
    cases hl.symm.trans hnone
  · obtain ⟨_, hcovers⟩ := (hs.wellFormed hid hl).covers_of_addMember hadd
    refine ⟨hkept id hid, l', ?_, hcovers⟩
    rw [ht, Overlay.layout?_setLayout hl, if_pos rfl]

section Building

variable (hs : s.Building c db id)
include hs

/-- A member is there as soon as its placeholder is, whatever becomes of its type. -/
theorem meets_addMemberType (type : Ty) :
    Tracks s (addMemberType id n type) fun _ _ trail => s.Meets (·.Covers id n) trail := by
  apply tracks_get_bind
  dsimp only
  generalize TypeStore.nesting s.db = nesting
  generalize (s.db.structIds.length + 1) * (n + 1) = fuel
  cases fuel with
  | zero =>
    rintro _ _ ⟨⟩
  | succ fuel =>
    apply tracks_get_bind
    simp only [hs.2, Bool.not_true, Bool.false_eq_true, if_false]
    refine tracks_bind (yields_addMember (sound_of_leads hs.1) hs.2).tracks ?_
    intro r u trail hlast hcovers _ _ _
    exact Meets.append_right ⟨u, List.mem_cons_self, hcovers⟩ hlast

theorem tracks_addMemberType (type : Ty) :
    Tracks s (addMemberType id n type) fun _ t trail =>
      t.Building c db id ∧ ∀ k, some n = some k → s.Meets (·.Covers id k) trail := by
  intro _ t hrun
  have hst := ((trails_addMemberType (c := c) id n type).mono Step.sketch).reaches hrun
  refine ⟨hs.moves hst, ?_⟩
  rintro _ ⟨⟩
  exact meets_addMemberType hs type _ _ hrun

theorem tracks_addRead (r : Read) :
    Tracks s (addRead id r) fun _ t trail =>
      t.Building c db id ∧ ∀ n, r.chain.access? = some n → s.Meets (·.Covers id n) trail := by
  unfold addRead Chain.access?
  cases r.chain.shape with
  | value => exact tracks_pure ⟨hs, nofun⟩
  | notPointer => exact tracks_pure ⟨hs, nofun⟩
  | _ => exact tracks_addMemberType hs _

theorem tracks_addWrite (w : Write) (hpossible : w.isPossiblePointer = true) :
    Tracks s (addWrite id w) fun _ t trail =>
      t.Building c db id ∧ ∀ n, w.chain.access? = some n → s.Meets (·.Covers id n) trail := by
  unfold addWrite Chain.access?
  cases hshape : w.chain.shape with
  | value => exact tracks_pure ⟨hs, nofun⟩
  | notPointer => exact tracks_pure ⟨hs, nofun⟩
  | interior offset =>
    -- no struct is made for a variable with a write that does not dereference it
    simp [Write.isPossiblePointer, hshape] at hpossible
  | _ => exact tracks_addMemberType hs _

theorem tracks_addCast (k : Cast) :
    Tracks s (addCast id k) fun _ t trail =>
      t.Building c db id ∧ ∀ n, k.chain.access? = some n → s.Meets (·.Covers id n) trail := by
  have hsize : Trails (Step c.settings) s (sizeFromCast id k.argType) :=
    (trails_sizeFromCast id _).mono .sketch
  unfold addCast Chain.access?
  cases k.chain.shape with
  | value => exact fun _ t hrun => ⟨hs.moves (hsize.reaches hrun), nofun⟩
  | notPointer => exact tracks_pure ⟨hs, nofun⟩
  | _ => exact tracks_addMemberType hs _

theorem tracks_addUses {uses : Uses} (hwrites : ∀ w ∈ uses.writes, w.isPossiblePointer = true) :
    Tracks s (addUses uses (.structPointer id)) fun _ t trail =>
      t.Building c db id ∧ ∀ n ∈ uses.accesses, s.Meets (·.Covers id n) trail := by
  refine tracks_bind (tracks_forM (I := Building c db id) (Q := fun w n => w.chain.access? = some n)
    (P := fun n t => t.Covers id n) hs fun w hw t ht => tracks_addWrite ht w (hwrites w hw)) ?_
  rintro _ t trail hlast ⟨ht, hwritten⟩
  refine tracks_bind (tracks_forM (I := Building c db id) (Q := fun r n => r.chain.access? = some n)
    (P := fun n t => t.Covers id n) ht fun r _ t ht => tracks_addRead ht r) ?_
  rintro _ u rest hlast' ⟨hu, hread⟩
  refine (tracks_forM (I := Building c db id) (Q := fun k n => k.chain.access? = some n)
    (P := fun n t => t.Covers id n) hu fun k _ t ht => tracks_addCast ht k).imp ?_
  rintro _ v last ⟨hv, hcast⟩
  refine ⟨hv, fun n hn => ?_⟩
  rcases Uses.mem_accesses.1 hn with ⟨r, hr, hrn⟩ | ⟨w, hw, hwn⟩ | ⟨k, hk, hkn⟩
  · exact ((hread r hr n hrn).append_left last).append_right hlast
  · exact (hwritten w hw n hwn).append_left (rest ++ last)
  · exact ((hcast k hk n hkn).append_right hlast').append_right hlast

end Building

theorem yields_mapM_map {α β γ : Type} {f : α → Infer β} {g : α → γ} {h : β → γ}
    (hf : ∀ x t, Yields t (f x) fun y _ => h y = g x) (xs : List α) :
    Yields s (xs.mapM f) fun ys _ => ys.map h = xs.map g := by
  induction xs generalizing s with
  | nil => exact ends_pure rfl
  | cons x rest ih =>
    rw [List.mapM_cons]
    refine ends_bind (hf x s) fun y t hy => ends_bind ih fun ys u hys => ends_pure ?_
    rw [List.map_cons, List.map_cons, hy, hys]

end Infer

theorem Uses.accesses_of_isEmpty {u : Uses} (h : u.isEmpty = true) : u.accesses = [] := by
  obtain ⟨hreads, hwrites, hcasts⟩ : u.reads = [] ∧ u.writes = [] ∧ u.casts = [] := by
    simpa [Uses.isEmpty, Uses.size, and_assoc] using h
  simp [accesses, chains, hreads, hwrites, hcasts]

theorem Verdict.isPossiblePointer_of_newStruct {db : Overlay} {u : Uses}
    (h : Verdict.ofUses db u = .ok .newStruct) {w : Write} (hw : w ∈ u.writes) :
    w.isPossiblePointer = true := by
  unfold Verdict.ofUses at h
  split at h
  · cases h
  · split at h
    · -- assignments fix the type or leave it unknown
      have hassigns : Verdict.ofAssigns u.assigns = .newStruct := Except.ok.inj h
      unfold Verdict.ofAssigns at hassigns
      split at hassigns
      · cases hassigns
      · dsimp only at hassigns
        split at hassigns <;> cases hassigns
    · split at h
      · cases h
      case h_2 hnone =>
        unfold nonPointer? at hnone
        split at hnone
        · exact (hnone _ rfl).elim
        case h_2 hfind => simpa using List.find?_eq_none.1 hfind w hw

theorem UseGroups.writes_merged (groups : UseGroups) :
    groups.merged.writes = groups.flatMap fun g => g.2.writes := by
  have hfold : ∀ all : Uses, (groups.foldl (fun all g => all.append g.2) all).writes =
      all.writes ++ groups.flatMap fun g => g.2.writes := by
    induction groups with
    | nil => simp
    | cons g rest ih =>
      intro all
      rw [List.foldl_cons, ih]
      simp [Uses.append]
  exact hfold {}

namespace Inference

open Infer Session

variable {c : Context} {deeper : Inference} {s : Session} {var : Variable}

theorem yields_resolveUses (function : Nat) (uses : Uses) :
    Yields s (resolveUses c deeper function uses) fun found _ => uses.Traces found := by
  have hwrite : ∀ (w : Write) t, Yields t (resolveWrite c deeper function w) fun w' _ =>
      w'.chain = w.chain := fun w t => ends_bind yields_true fun _ _ _ => ends_pure rfl
  have hcast : ∀ (k : Cast) t, Yields t (resolveCast c deeper k) fun k' _ =>
      k'.chain = k.chain := fun k t => ends_bind yields_true fun _ _ _ => ends_pure rfl
  refine ends_bind (yields_mapM_map (h := fun w : Write => w.chain) hwrite uses.writes) ?_
  intro writes t hwrites
  refine ends_bind (yields_mapM_map (h := fun k : Cast => k.chain) hcast uses.casts) ?_
  intro casts u hcasts
  exact ends_pure ⟨rfl, hwrites, hcasts⟩

theorem yields_collectFrom (functions : List Nat) :
    Yields s (collectFrom c deeper var functions) fun groups _ =>
      ∀ body ∈ functions.filterMap c.program.function?, ∀ n ∈ (body.usesOf var).accesses,
        ∃ g ∈ groups, n ∈ g.2.accesses := by
  induction functions generalizing s with
  | nil => exact ends_pure nofun
  | cons function rest ih =>
    unfold collectFrom
    cases hbody : c.program.function? function with
    | none => simpa [List.filterMap_cons, hbody] using ih
    | some body =>
      simp only [List.filterMap_cons, hbody, List.mem_cons, forall_eq_or_imp]
      split
      case isTrue hempty =>
        refine ih.imp fun groups t hall => ⟨?_, hall⟩
        simp [Uses.accesses_of_isEmpty hempty]
      case isFalse =>
        refine ends_bind (yields_resolveUses function _) fun found t hfound => ?_
        refine ends_bind ih fun groups u hall => ends_pure ⟨?_, ?_⟩
        · intro n hn
          exact ⟨_, List.mem_cons_self, by rw [hfound.accesses_eq]; exact hn⟩
        · intro other hother n hn
          obtain ⟨g, hg, hgn⟩ := hall other hother n hn
          exact ⟨g, List.mem_cons_of_mem _ hg, hgn⟩

/-- What there is to merge into a struct that is made for a variable: all that the variable is used
at, and no write that only computes an address. -/
structure Grounds (c : Context) (var : Variable) (groups : UseGroups) : Prop where
  accesses : ∀ n ∈ c.accesses var, ∃ g ∈ groups, n ∈ g.2.accesses
  writes : ∀ g ∈ groups, ∀ w ∈ g.2.writes, w.isPossiblePointer = true

theorem yields_typeByUses {uses : Uses} :
    Yields s (typeByUses c.settings var uses) fun _ t => t.newTypes = s.newTypes ∨
      ∀ w ∈ uses.writes, w.isPossiblePointer = true := by
  refine ends_get_bind (ends_lift_bind (fun _ _ => trivial) fun verdict hverdict => ?_)
  cases verdict with
  | type t => exact ends_pure (.inl rfl)
  | unknown reason => exact ends_modify_bind (ends_pure (.inl rfl))
  | newStruct =>
    refine ends_bind yields_true fun _ _ _ => ends_pure (.inr fun w hw => ?_)
    exact Verdict.isPossiblePointer_of_newStruct hverdict hw

/-- The type of a variable is found without a look at its uses, or once they are gathered. In both
cases no struct is made for it, unless that has its grounds in the uses. -/
theorem yields_grounds :
    Yields s (inferFresh c deeper var) fun outcome t => ∀ type groups,
      outcome = .ok (type, groups) → t.newTypes = s.newTypes ∨
        ∃ u, (collectFrom c deeper var (c.program.usersOf var)).run s = .ok (groups, u) ∧
          (t.newTypes = u.newTypes ∨ Grounds c var groups) := by
  apply ends_get_bind
  dsimp only
  split
  · refine ends_pure ?_
    rintro _ _ ⟨⟩
    exact .inl rfl
  case isFalse himport =>
    refine ends_bind (ends_inferable_iff (by simpa using himport)) ?_
    rintro ready t ⟨hready, hstate⟩
    have hnew : t.newTypes = s.newTypes := by
      obtain rfl | ⟨_, d, rfl⟩ := hstate
      · rfl
      · rfl
    split
    · exact ends_pure nofun
    · refine ends_pure ?_
      rintro _ _ ⟨⟩
      exact .inl hnew
    · split
      · refine ends_pure ?_
        rintro _ _ ⟨⟩
        exact .inl hnew
      · obtain rfl : t = s := by
          rcases hstate with rfl | ⟨hwithheld, _⟩
          · rfl
          · rw [hready.1 rfl] at hwithheld
            cases hwithheld
        refine ends_bind (yields_collectFrom _).with_run ?_
        rintro groups u ⟨haccesses, hcollect⟩
        refine ends_bind yields_typeByUses fun type v hmade => ends_pure ?_
        rintro _ _ ⟨⟩
        refine .inr ⟨u, hcollect, hmade.imp_right fun hwrites => ⟨?_, fun g hg w hw => ?_⟩⟩
        · intro n hn
          obtain ⟨body, hbody, hn⟩ := List.mem_flatMap.1 hn
          exact haccesses body hbody n hn
        · refine hwrites w ?_
          rw [UseGroups.writes_merged]
          exact List.mem_flatMap.2 ⟨g, hg, hw⟩

theorem yields_settledType {type : Ty} {groups : UseGroups} :
    Yields s (settleVariable c deeper var type groups) fun found _ => found = type := by
  refine ends_modify_bind (ends_get_bind ?_)
  dsimp only
  split
  · exact ends_bind yields_true fun _ _ _ => ends_bind yields_true fun _ _ _ => ends_pure rfl
  · exact ends_pure rfl

theorem yields_settledOld {id : StructId} {groups : UseGroups} (h : s.isNewType id = false) :
    Yields s (settleVariable c deeper var (.structPointer id) groups) fun _ t =>
      t.isNewType id = false := by
  refine ends_modify_bind (ends_get_bind ?_)
  dsimp only
  split
  case isTrue hid => exact absurd (h.symm.trans hid) nofun
  case isFalse => exact ends_pure h

/-- A struct is made for a variable: it is there when the type of the variable is found, but was not
there when its uses were gathered. -/
structure MadeFor (c : Context) (deeper : Inference) (s : Session) (var : Variable) (id : StructId)
    (t : Session) : Prop where
  old : s.isNewType id = false
  gathered : ∀ groups u, (collectFrom c deeper var (c.program.usersOf var)).run
    { s with vars := s.vars.insert var .inProgress, depth := s.depth + 1 } = .ok (groups, u) →
      u.isNewType id = false
  made : t.isNewType id = true

theorem MadeFor.of_run {id : StructId} {groups : UseGroups} {t u : Session}
    (hold : s.isNewType id = false)
    (hrun : (collectFrom c deeper var (c.program.usersOf var)).run
      { s with vars := s.vars.insert var .inProgress, depth := s.depth + 1 } = .ok (groups, u))
    (hgathered : u.isNewType id = false) (hmade : t.isNewType id = true) :
    MadeFor c deeper s var id t := by
  refine ⟨hold, fun groups' u' hrun' => ?_, hmade⟩
  cases hrun.symm.trans hrun'
  exact hgathered

section Settling

variable {db : Database} {id : StructId} {groups : UseGroups}

theorem tracks_settleVariable (hs : Leads c.settings (start db) s)
    (hgroups : ∀ g ∈ groups, ∀ w ∈ g.2.writes, w.isPossiblePointer = true) :
    Tracks s (settleVariable c deeper var (.structPointer id) groups) fun _ t trail =>
      t.isNewType id = true → ∀ g ∈ groups, ∀ n ∈ g.2.accesses,
        s.Meets (·.Covers id n) trail := by
  refine tracks_modify_bind (tracks_get_bind ?_)
  have hleads := hs.trans (leads_of_moves (.single (.resolve var (.resolved (.structPointer id)))))
  generalize ({ s with vars := s.vars.insert var (.resolved (.structPointer id)) } : Session) = t
    at hleads
  dsimp only
  split
  case isFalse hold =>
    exact tracks_pure fun hid => absurd hid hold
  case isTrue hid =>
    refine tracks_bind (tracks_forM (I := Building c db id)
      (Q := fun g : Nat × Uses => fun n => n ∈ g.2.accesses) (P := fun n t => t.Covers id n)
      ⟨hleads, hid⟩ fun g hg u hu => tracks_addUses hu (hgroups g hg)) ?_
    rintro _ u trail hlast ⟨_, hcovered⟩
    intro _ _ _ _ g hg n hn
    exact ((hcovered g hg n hn).append_left _).cons

/-- On the way to a struct that is made for a variable, everything that it is used at is covered. -/
theorem tracks_variableType (hdeeper : deeper.Moves c) (hs : Leads c.settings (start db) s) :
    Tracks s (variableType c deeper var) fun type t trail => type = .structPointer id →
      MadeFor c deeper s var id t → ∀ n ∈ c.accesses var, s.Meets (·.Covers id n) trail := by
  apply tracks_get_bind
  split
  · exact tracks_pure fun _ hmade => absurd (hmade.old.symm.trans hmade.made) nofun
  · have henter : Trails (Step c.settings) s (enter c.settings var.text) :=
      (trails_enter _).mono .aside
    refine tracks_bind (henter.moves.yields.and (ends_enter (c := c) _)).tracks ?_
    rintro entered t trail hlast ⟨hst, hentered⟩
    obtain ⟨rfl, _⟩ | ⟨rfl, _, rfl⟩ := hentered
    · exact tracks_pure nofun
    refine tracks_modify_bind ?_
    have hfresh (u : Session) : Trails (Step c.settings) u (inferFresh c deeper var) :=
      moves_inferFresh hdeeper.toTypes (Manner.admits_stepping .draft) var
    refine tracks_bind ((hfresh _).moves.yields.and yields_grounds).tracks ?_
    rintro outcome u trail' hlast' ⟨hmu, hgrounds⟩
    refine tracks_modify_bind ?_
    have hsu := ((hst.tail (.resolve var .inProgress)).trans hmu).tail
      (.track u.analyzed u.deferred u.propagated (u.depth - 1))
    cases outcome with
    | error e =>
      refine tracks_modify_bind (yields_settledType.tracks.imp fun type t _ htype hpointer => ?_)
      rw [htype] at hpointer
      cases hpointer
    | ok found =>
      obtain ⟨type, groups⟩ := found
      by_cases htype : type = .structPointer id
      · subst htype
        cases hid : u.isNewType id with
        | false =>
          refine Tracks.imp (Yields.tracks (yields_settledOld hid)) fun _ t _ ht _ hmade => ?_
          cases ht.symm.trans hmade.made
        | true =>
          -- if no struct is made after the uses were gathered, this one was there before
          rcases hgrounds _ _ rfl with hsame | ⟨v, hcollect, hsame | hgrounds⟩
          · refine yields_true.tracks.imp fun _ t _ _ _ hmade => ?_
            have hold : s.isNewType id = true := by rwa [Run.isNewType, hsame] at hid
            cases hold.symm.trans hmade.old
          · refine yields_true.tracks.imp fun _ t _ _ _ hmade => ?_
            have hold : v.isNewType id = true := by rwa [Run.isNewType, hsame] at hid
            cases hold.symm.trans (hmade.gathered groups v hcollect)
          · refine (tracks_settleVariable (hs.trans (leads_of_moves hsu))
              hgrounds.writes).imp fun _ t rest hmeets _ hmade n hn => ?_
            obtain ⟨g, hg, hgn⟩ := hgrounds.accesses n hn
            have hsettled := hmeets hmade.made g hg n hgn
            exact ((hsettled.cons.append_right hlast').cons).append_right hlast
      · exact yields_settledType.tracks.imp fun _ t _ hsettled hpointer =>
          absurd (hsettled.symm.trans hpointer) htype

end Settling

/-- A struct is made for a variable. When inference returns, at any level and in any session, the
struct reaches past every offset at which the variable is used. A member covers the offset, unless
on the way the member that did was given a type that ends before it, and none does since. -/
theorem accesses_covered (c : Context) (db : Database) (s : Session)
    (hs : Leads c.settings (start db) s) (level : Nat) (var : Variable) (id : StructId)
    (t : Session)
    (h : ((upTo c (level + 1)).inferVariable var).run s = .ok (.structPointer id, t))
    (hmade : MadeFor c (upTo c level) s var id t) :
    ∃ l, t.db.layout? id = some l ∧ ∀ n ∈ c.accesses var, n < l.size ∧
      (l.covers n = .ok true ↔
        ¬ Uncovers id n (s :: ((upTo c (level + 1)).inferVariable var).trail s)) := by
  have htrails : Trails (Step c.settings) s ((upTo c (level + 1)).inferVariable var) :=
    (moves_upTo (level + 1)).inferVariable var s
  have hlast := Infer.last_trail _ h
  have ht := sound_of_leads (hs.trans (leads_of_moves (htrails.reaches h)))
  obtain ⟨l, hl⟩ := ht.layout?_of_isNewType hmade.made
  refine ⟨l, hl, fun n hn => ?_⟩
  have hmeets := tracks_variableType (moves_upTo level) hs _ _ h rfl hmade n hn
  have hcovers := covers_iff_not_uncovers hs htrails.chain hmeets
  rw [hlast, covers_iff_of_layout hmade.made hl] at hcovers
  refine ⟨?_, hcovers⟩
  obtain ⟨u, hmem, hu⟩ := hmeets
  have hsu := hs.trans (leads_of_moves (reaches_of_mem htrails.chain hmem))
  have hut := reaches_last htrails.chain hmem
  rw [hlast] at hut
  exact hu.lt_size hsu hut hl

/-- A pointer that is written through twice, followed further and passed on from its inside. Nothing
that is covered on the way is given up again. -/
theorem accesses_covered_four :
    let p : Variable := .local 4096 0
    let body : FunctionBody :=
      { address := 4096, locals := [{ name := "p", isArg := true }]
        reads := [{ var := p, chain := [.add 16, .deref, .deref] }]
        writes := [{ var := p, chain := [.deref], value := .num 1 4 },
          { var := p, chain := [.add 8, .deref], value := .num 1 8 }]
        casts := [{ var := p, chain := [.add 24], argIndex := 0, call := ⟨4112, .explicit 8192⟩ }] }
    let c : Context := { program := { functions := .ofList [(4096, body)] }, settings := {} }
    c.accesses p = [16, 0, 8, 24] ∧ ∃ t l,
      (Infer.analyzeVariable c p).run (start {}) = .ok (.structPointer ⟨0⟩, t) ∧
      MadeFor c (upTo c 11) (start {}) p ⟨0⟩ t ∧ t.db.layout? ⟨0⟩ = some l ∧
      ∀ n ∈ c.accesses p, n < l.size ∧ l.covers n = .ok true := by
  intro p body c
  have heval : (do
      let found ← (Infer.analyzeVariable c p).run (start {})
      pure (found.1, found.2.isNewType ⟨0⟩)) = (.ok (.structPointer ⟨0⟩, true) : Checked _) := by
    decide +kernel
  have hgather : (do
      let found ← (collectFrom c (upTo c 11) p (c.program.usersOf p)).run
        { start {} with vars := (start {}).vars.insert p .inProgress, depth := 1 }
      pure (found.2.isNewType ⟨0⟩)) = (.ok false : Checked _) := by
    decide +kernel
  have hsteps : (start {} :: ((upTo c 12).inferVariable p).trail (start {})).IsChain
      fun u v => ∀ n ∈ c.accesses p, u.Covers ⟨0⟩ n → v.Covers ⟨0⟩ n := by
    decide +kernel
  obtain ⟨_, hgathered, hgather⟩ := Checked.bind_eq_ok.1 hgather
  have hold := Checked.pure_eq_ok.1 hgather
  obtain ⟨⟨type, t⟩, h, heval⟩ := Checked.bind_eq_ok.1 heval
  simp only [Checked.pure_eq_ok, Prod.mk.injEq] at heval
  obtain ⟨rfl, hnew⟩ := heval
  have hmade : MadeFor c (upTo c 11) (start {}) p ⟨0⟩ t := .of_run rfl hgathered hold hnew
  obtain ⟨l, hl, hcovered⟩ := accesses_covered c {} (start {}) .refl 11 p ⟨0⟩ t h hmade
  refine ⟨by decide, t, l, h, hmade, hl, fun n hn => ?_⟩
  obtain ⟨hinside, hcovers⟩ := hcovered n hn
  refine ⟨hinside, hcovers.2 ?_⟩
  rintro ⟨past, u, v, rest, hsplit, hu, _, hleft⟩
  have hkept := List.isChain_iff_forall_rel_of_append_cons_cons.1 hsteps hsplit n hn hu
  exact hleft v List.mem_cons_self hkept

/-- Eight bytes are written at the start of a struct, four in their middle and then four at the
start. The last write narrows the first member, and no member covers the offset of the second. -/
theorem access_uncovered_by_narrowing :
    let p : Variable := .local 4096 0
    let body : FunctionBody :=
      { address := 4096, locals := [{ name := "p", isArg := true }]
        writes := [{ var := p, chain := [.deref], value := .num 1 8 },
          { var := p, chain := [.add 4, .deref], value := .num 1 4 },
          { var := p, chain := [.deref], value := .num 1 4 }] }
    let c : Context := { program := { functions := .ofList [(4096, body)] }, settings := {} }
    4 ∈ c.accesses p ∧ ∃ t l,
      (Infer.analyzeVariable c p).run (start {}) = .ok (.structPointer ⟨0⟩, t) ∧
      MadeFor c (upTo c 13) (start {}) p ⟨0⟩ t ∧ t.db.layout? ⟨0⟩ = some l ∧
      l.size = 8 ∧ l.covers 4 = .ok false := by
  intro p body c
  have heval : (do
      let found ← (Infer.analyzeVariable c p).run (start {})
      pure (found.1, found.2.isNewType ⟨0⟩,
        (found.2.db.layout? ⟨0⟩).map fun l => (l.size, l.covers 4))) =
      (.ok (.structPointer ⟨0⟩, true, some (8, .ok false)) : Checked _) := by
    decide +kernel
  have hgather : (do
      let found ← (collectFrom c (upTo c 13) p (c.program.usersOf p)).run
        { start {} with vars := (start {}).vars.insert p .inProgress, depth := 1 }
      pure (found.2.isNewType ⟨0⟩)) = (.ok false : Checked _) := by
    decide +kernel
  obtain ⟨_, hgathered, hgather⟩ := Checked.bind_eq_ok.1 hgather
  have hold := Checked.pure_eq_ok.1 hgather
  obtain ⟨⟨type, t⟩, h, heval⟩ := Checked.bind_eq_ok.1 heval
  simp only [Checked.pure_eq_ok, Prod.mk.injEq, Option.map_eq_some_iff] at heval
  obtain ⟨rfl, hnew, l, hl, hsize, hcovers⟩ := heval
  exact ⟨by decide, t, l, h, .of_run rfl hgathered hold hnew, hl, hsize, hcovers⟩

end Inference

end TypeRecovery
