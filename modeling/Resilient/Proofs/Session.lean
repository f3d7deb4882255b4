import Mathlib.Data.List.GetD
import Mathlib.Data.List.Induction
import Mathlib.Data.Set.Insert
import Mathlib.Logic.Relation
import Resilient.Proofs.Reporting
import Resilient.Session

/-!
# No report is lost or doubled

Handles of shared collectors that were cloned from one another form a group (`Related`). What is
taken out through a group in a session and what is left at the end are the reports told through the
group, in their order (`taken_append_held`). The handle of a collector of its own sees what it saw
before and what is told through it (`reports_own_append`). And a reader answers and reports the same
whatever its handle holds (`Feed.into_eq`).
-/

namespace Resilient

/-! ### Galleries -/

namespace Gallery

variable (g : Gallery) (ds more : Diagnostics) {m n : Nat}

theorem report_nil (n : Nat) : g.report n [] = g := by
  simp only [report, List.append_nil]
  exact congrArg mk (List.modify_id n g.collectors)

theorem report_append (n : Nat) : (g.report n ds).report n more = g.report n (ds ++ more) := by
  simp only [report, List.modify_modify_eq, Function.comp_def, List.append_assoc]

theorem reports_report (h : m < g.collectors.length) :
    (g.report n ds).reports m = g.reports m ++ if n = m then ds else [] := by
  by_cases hn : n = m <;> simp [reports, report, hn, h]

theorem reports_create (h : m < g.collectors.length) : g.create.reports m = g.reports m :=
  List.getD_append _ _ _ _ h

theorem reports_copy (h : m < g.collectors.length) : (g.copy n).reports m = g.reports m :=
  List.getD_append _ _ _ _ h

theorem reports_copy_length : (g.copy n).reports g.collectors.length = g.reports n := by
  simp [reports, copy]

end Gallery

/-! ### Pools -/

namespace Pool

variable (p : Pool) (ds more : Diagnostics) {m n k : Nat}

theorem report_nil (n : Nat) : p.report n [] = p := by
  simp only [report, List.append_nil]
  exact congrArg (mk p.owners) (List.modify_id _ p.collectors)

theorem report_append (n : Nat) : (p.report n ds).report n more = p.report n (ds ++ more) := by
  simp only [report, owner, List.length_modify, List.modify_modify_eq, Function.comp_def,
    List.append_assoc]

/-- The reports of a collector. -/
def held (p : Pool) (k : Nat) : Diagnostics := p.collectors.getD k []

theorem held_report (h : p.owner n < p.collectors.length) :
    (p.report n ds).held k = p.held k ++ if p.owner n = k then ds else [] := by
  by_cases hk : p.owner n = k
  · subst hk
    simp [held, report, h]
  · simp [held, report, hk]

theorem held_create : p.create.held k = p.held k := by
  simp only [held, create, List.getD_eq_getElem?_getD, List.getElem?_append]
  split
  · rfl
  · rename_i h
    rw [List.getElem?_eq_none (Nat.le_of_not_lt h)]
    cases k - p.collectors.length <;> rfl

theorem held_take : (p.take n).2.held k = if p.owner n = k then [] else p.held k := by
  simp only [held, take, List.getD_eq_getElem?_getD, List.getElem?_set]
  split
  · split <;> rfl
  · rfl

theorem owner_create (h : n < p.owners.length) : p.create.owner n = p.owner n := by
  simp [owner, create, h, List.getElem?_append_left]

theorem owner_share (h : n < p.owners.length) : (p.share m).owner n = p.owner n := by
  simp [owner, share, h, List.getElem?_append_left]

theorem owner_create_length : p.create.owner p.owners.length = p.collectors.length := by
  simp [owner, create]

theorem owner_share_length : (p.share m).owner p.owners.length = p.owner m := by
  simp [owner, share]

theorem owner_report : (p.report n ds).owner m = p.owner m := by
  simp only [owner, report, List.length_modify]

theorem owner_take : (p.take n).2.owner m = p.owner m := by
  simp only [owner, take, List.length_set]

end Pool

/-! ### Feeds -/

/-- To tell reports one by one is to tell them at once. -/
theorem foldl_single {σ : Type} (r : σ → Diagnostics → σ) (hnil : ∀ s, r s [] = s)
    (happend : ∀ s ds more, r (r s ds) more = r s (ds ++ more)) (s : σ) (ds : Diagnostics) :
    ds.foldl (fun s d => r s [d]) s = r s ds := by
  induction ds generalizing s with
  | nil => exact (hnil s).symm
  | cons d ds ih =>
    rw [List.foldl_cons, ih, happend]
    rfl

theorem Diagnostics.foldl_report (ds more : Diagnostics) : more.foldl report ds = ds ++ more :=
  foldl_single (fun ds more => ds ++ more) List.append_nil List.append_assoc ds more

/-- A sink takes the reports that a feed makes by itself, and the answer is the same. -/
theorem Feed.into_eq {σ : Type} (sink : Sink σ) (s : σ) (f : Feed) :
    f.into sink s = (f.alone.1, f.alone.2.foldl sink s) := by
  cases f with
  | report d => rfl
  | tokens source d => rw [into, tokenizeInto_eq]; rfl
  | json source options => rw [into, Json.parseInto_eq]; rfl
  | expression source options => rw [into, Expression.parseInto_eq]; rfl

theorem Feed.into_nil (f : Feed) : f.into Diagnostics.report [] = f.alone := by
  rw [into_eq, Diagnostics.foldl_report, List.nil_append]

namespace Collectors

theorem foldl_report_own (c : Collectors) (n : Nat) (ds : Diagnostics) :
    ds.foldl (report (.own n)) c = { c with own := c.own.report n ds } :=
  foldl_single (fun c ds => { c with own := c.own.report n ds })
    (fun c => by rw [Gallery.report_nil]) (fun c ds more => by rw [Gallery.report_append]) c ds

theorem foldl_report_shared (c : Collectors) (n : Nat) (ds : Diagnostics) :
    ds.foldl (report (.shared n)) c = { c with shared := c.shared.report n ds } :=
  foldl_single (fun c ds => { c with shared := c.shared.report n ds })
    (fun c => by rw [Pool.report_nil]) (fun c ds more => by rw [Pool.report_append]) c ds

end Collectors

namespace Action

theorem perform_feed_own (c : Collectors) (n : Nat) (f : Feed) :
    (feed (.own n) f).perform c =
      (f.alone.1, { c with own := c.own.report n f.alone.2 }) := by
  rw [perform, f.into_eq, Collectors.foldl_report_own]

theorem perform_feed_shared (c : Collectors) (n : Nat) (f : Feed) :
    (feed (.shared n) f).perform c =
      (f.alone.1, { c with shared := c.shared.report n f.alone.2 }) := by
  rw [perform, f.into_eq, Collectors.foldl_report_shared]

end Action

/-! ### One action -/

noncomputable section

open scoped Classical

/-- The reports told through a group of handles. -/
def Action.told (group : Set Handle) : Action → Diagnostics
  | feed h f => if h ∈ group then f.alone.2 else []
  | _ => []

/-- The reports taken out through a group of handles. -/
def Action.taken (group : Set Handle) : Action × Answer → Diagnostics
  | (take n, .reports ds) => if .shared n ∈ group then ds else []
  | _ => []

namespace Action

variable {c : Collectors} {n k : Nat} (a : Action)

theorem length_own_perform (c : Collectors) :
    (a.perform c).2.own.collectors.length =
      c.own.collectors.length + if a.makesOwn then 1 else 0 := by
  cases a with
  | createOwn => simp [perform, Gallery.create, makesOwn]
  | clone h => cases h <;> simp [perform, Gallery.copy, makesOwn]
  | feed h f =>
    cases h <;> simp [perform_feed_own, perform_feed_shared, Gallery.report, makesOwn]
  | createShared | take m | snapshot h => rfl

theorem length_owners_perform (c : Collectors) :
    (a.perform c).2.shared.owners.length =
      c.shared.owners.length + if a.makesShared then 1 else 0 := by
  cases a with
  | createShared => simp [perform, Pool.create, makesShared]
  | clone h => cases h <;> simp [perform, Pool.share, makesShared]
  | feed h f =>
    cases h <;> simp [perform_feed_own, perform_feed_shared, Pool.report, makesShared]
  | createOwn | take m | snapshot h => rfl

theorem length_collectors_le_perform (c : Collectors) :
    c.shared.collectors.length ≤ (a.perform c).2.shared.collectors.length := by
  cases a with
  | createShared => simp [perform, Pool.create]
  | clone h => cases h <;> exact Nat.le_refl _
  | feed h f => cases h <;> simp [perform_feed_own, perform_feed_shared, Pool.report]
  | take m => simp [perform, Pool.take]
  | createOwn | snapshot h => exact Nat.le_refl _

/-- A collector of its own takes what is told through its handle and nothing else. -/
theorem reports_own_perform (hn : n < c.own.collectors.length) :
    (a.perform c).2.own.reports n = c.own.reports n ++ a.told {.own n} := by
  cases a with
  | createOwn => simpa [told, perform] using c.own.reports_create hn
  | clone h =>
    cases h with
    | own m => simpa [told, perform] using c.own.reports_copy hn
    | shared m => exact (List.append_nil _).symm
  | feed h f =>
    cases h with
    | own m => simp [told, perform_feed_own, Gallery.reports_report _ _ hn]
    | shared m => simp [told, perform_feed_shared]
  | createShared | take m | snapshot h => exact (List.append_nil _).symm

theorem owner_perform (hn : n < c.shared.owners.length) :
    (a.perform c).2.shared.owner n = c.shared.owner n := by
  cases a with
  | createShared => exact c.shared.owner_create hn
  | clone h =>
    cases h with
    | own m => rfl
    | shared m => exact c.shared.owner_share hn
  | feed h f =>
    cases h with
    | own m => rw [perform_feed_own]
    | shared m => rw [perform_feed_shared, Pool.owner_report]
  | take m => exact c.shared.owner_take
  | createOwn | snapshot h => rfl

/-- A new shared handle leads to a new collector or to that of the handle it is cloned from. -/
theorem owner_length_perform (h : a.makesShared = true) (c : Collectors) :
    (a = .createShared ∧ (a.perform c).2.shared.owner c.shared.owners.length =
      c.shared.collectors.length) ∨
    ∃ n, a = .clone (.shared n) ∧
      (a.perform c).2.shared.owner c.shared.owners.length = c.shared.owner n := by
  cases a with
  | createShared => exact .inl ⟨rfl, c.shared.owner_create_length⟩
  | clone k =>
    cases k with
    | own m => cases h
    | shared m => exact .inr ⟨m, rfl, c.shared.owner_share_length⟩
  | createOwn | feed k f | take m | snapshot k => cases h

/-- What an action takes out of a collector and what it leaves there are what was there and what it
tells. -/
theorem taken_append_held {group : Set Handle} (hown : ∀ n, .own n ∉ group)
    (hshared : ∀ n, a.handle? = some (.shared n) →
      c.shared.owner n < c.shared.collectors.length ∧
        (.shared n ∈ group ↔ c.shared.owner n = k)) :
    taken group (a, (a.perform c).1) ++ (a.perform c).2.shared.held k =
      c.shared.held k ++ a.told group := by
  cases a with
  | createShared => simpa [taken, told, perform] using c.shared.held_create
  | feed h f =>
    cases h with
    | own m => simp [taken, told, perform_feed_own, hown m]
    | shared m =>
      obtain ⟨hlt, hmem⟩ := hshared m rfl
      simp [taken, told, perform_feed_shared, Pool.held_report _ _ hlt, hmem]
  | take m =>
    obtain ⟨-, hmem⟩ := hshared m rfl
    by_cases hk : c.shared.owner m = k
    · have hall : (c.shared.take m).1 = c.shared.held k := congrArg c.shared.held hk
      simp [taken, told, perform, hmem, Pool.held_take, hk, hall]
    · simp [taken, told, perform, hmem, Pool.held_take, hk]
  | clone h => cases h <;> simp [taken, told, perform, Pool.held, Pool.share]
  | createOwn | snapshot h => simp [taken, told, perform]

end Action

/-! ### Whole sessions -/

variable {past later session : List Action} {a : Action} {m n k : Nat} {g h : Handle}

namespace Collectors

theorem after_append (c : Collectors) (past later : List Action) :
    c.after (past ++ later) = (c.after past).after later := List.foldl_append

theorem after_append_singleton (c : Collectors) (past : List Action) (a : Action) :
    c.after (past ++ [a]) = (a.perform (c.after past)).2 := c.after_append past [a]

theorem transcript_append (c : Collectors) (past later : List Action) :
    c.transcript (past ++ later) = c.transcript past ++ (c.after past).transcript later := by
  induction past generalizing c with
  | nil => rfl
  | cons a past ih => exact congrArg _ (ih _)

theorem length_own_after (past : List Action) :
    (empty.after past).own.collectors.length = past.countP Action.makesOwn := by
  induction past using List.reverseRecOn with
  | nil => rfl
  | append_singleton past a ih =>
    rw [after_append_singleton, a.length_own_perform, ih, List.countP_append, List.countP_singleton]

theorem length_owners_after (past : List Action) :
    (empty.after past).shared.owners.length = past.countP Action.makesShared := by
  induction past using List.reverseRecOn with
  | nil => rfl
  | append_singleton past a ih =>
    rw [after_append_singleton, a.length_owners_perform, ih, List.countP_append,
      List.countP_singleton]

end Collectors

open Collectors

theorem Handle.Made.append (h : g.Made past) (later : List Action) : g.Made (past ++ later) := by
  cases g with
  | own n | shared n =>
    rw [Made, List.countP_append]
    exact Nat.lt_add_right _ h

/-- The handle of a collector of its own sees what it saw, and what is told through it. -/
theorem reports_own_append (h : (Handle.own n).Made past) (later : List Action) :
    (empty.after (past ++ later)).reports (.own n) =
      (empty.after past).reports (.own n) ++ later.flatMap (Action.told {.own n}) := by
  induction later using List.reverseRecOn with
  | nil => simp
  | append_singleton later a ih =>
    have hlt : n < (empty.after (past ++ later)).own.collectors.length := by
      rw [length_own_after]
      exact h.append later
    rw [← List.append_assoc, after_append_singleton, List.flatMap_append, List.flatMap_singleton,
      ← List.append_assoc, ← ih]
    exact a.reports_own_perform hlt

theorem owner_append (h : (Handle.shared n).Made past) (later : List Action) :
    (empty.after (past ++ later)).shared.owner n = (empty.after past).shared.owner n := by
  induction later using List.reverseRecOn with
  | nil => simp
  | append_singleton later a ih =>
    have hlt : n < (empty.after (past ++ later)).shared.owners.length := by
      rw [length_owners_after]
      exact h.append later
    rw [← List.append_assoc, after_append_singleton, a.owner_perform hlt, ih]

theorem sessionFrom_append :
    SessionFrom past (session ++ later) ↔
      SessionFrom past session ∧ SessionFrom (past ++ session) later := by
  induction session generalizing past with
  | nil => simp [SessionFrom]
  | cons a session ih => simp [SessionFrom, ih, and_assoc]

theorem session_append_singleton :
    Session (past ++ [a]) ↔ Session past ∧ ∀ h ∈ a.handle?, h.Made past := by
  simp [Session, sessionFrom_append, SessionFrom]

theorem made_append_singleton_iff :
    (Handle.shared n).Made (past ++ [a]) ↔ (Handle.shared n).Made past ∨
      a.makesShared = true ∧ n = past.countP Action.makesShared := by
  rw [Handle.Made, Handle.Made, List.countP_append, List.countP_singleton]
  by_cases hmakes : a.makesShared = true
  · simp only [hmakes, if_true, true_and]
    omega
  · simp [hmakes]

theorem owner_lt (hs : Session past) (hn : (Handle.shared n).Made past) :
    (empty.after past).shared.owner n < (empty.after past).shared.collectors.length := by
  induction past using List.reverseRecOn generalizing n with
  | nil => cases hn
  | append_singleton past a ih =>
    obtain ⟨hpast, hknown⟩ := session_append_singleton.1 hs
    have hgrows := a.length_collectors_le_perform (empty.after past)
    rcases made_append_singleton_iff.1 hn with hn | ⟨hmakes, rfl⟩
    · rw [owner_append hn, after_append_singleton]
      exact Nat.lt_of_lt_of_le (ih hpast hn) hgrows
    · rw [after_append_singleton, ← length_owners_after]
      rcases a.owner_length_perform hmakes (empty.after past) with ⟨rfl, howner⟩ | ⟨i, rfl, howner⟩
      · rw [howner]
        simp [Action.perform, Pool.create]
      · rw [howner]
        exact Nat.lt_of_lt_of_le (ih hpast (hknown _ rfl)) hgrows

/-! ### Groups -/

/-- One handle is made as a clone of another. -/
def Cloned (session : List Action) (h k : Handle) : Prop :=
  ∃ past later, session = past ++ .clone h :: later ∧ k = h.next past

/-- Handles that are clones of one another, by way of any others. -/
def Related (session : List Action) : Handle → Handle → Prop := Relation.EqvGen (Cloned session)

theorem Related.append (hr : Related past g h) (later : List Action) :
    Related (past ++ later) g h := by
  refine Relation.EqvGen.mono ?_ _ _ hr
  rintro g h ⟨before, behind, rfl, rfl⟩
  exact ⟨before, behind ++ later, by simp, rfl⟩

/-- The shared collector of a handle, if it has one. -/
def Collectors.owner? (c : Collectors) : Handle → Option Nat
  | .own _ => none
  | .shared n => some (c.shared.owner n)

theorem owner?_eq_of_cloned (hs : Session session) (hc : Cloned session g h) :
    (empty.after session).owner? g = (empty.after session).owner? h := by
  obtain ⟨past, later, rfl, rfl⟩ := hc
  cases g with
  | own n => rfl
  | shared n =>
    have hlast : Session (past ++ [.clone (.shared n)]) := by
      rw [← List.singleton_append, ← List.append_assoc] at hs
      exact (sessionFrom_append.1 hs).1
    have hn : (Handle.shared n).Made past := (session_append_singleton.1 hlast).2 _ rfl
    have hnext : (Handle.shared (past.countP Action.makesShared)).Made
        (past ++ [.clone (.shared n)]) := made_append_singleton_iff.2 (.inr ⟨rfl, rfl⟩)
    have howner := owner_append hnext later
    rw [List.append_assoc, List.singleton_append] at howner
    refine congrArg some ?_
    rw [owner_append hn, howner, after_append_singleton, ← length_owners_after]
    exact (empty.after past).shared.owner_share_length.symm

theorem owner?_eq_of_related (hs : Session session) (hr : Related session g h) :
    (empty.after session).owner? g = (empty.after session).owner? h := by
  induction hr with
  | rel g h hc => exact owner?_eq_of_cloned hs hc
  | refl g => rfl
  | symm g h _ ih => exact ih.symm
  | trans g h k _ _ ih ih' => exact ih.trans ih'

/-- Shared handles that lead to one collector are clones of one another. -/
theorem related_of_owner_eq (hs : Session past) (hm : (Handle.shared m).Made past)
    (hn : (Handle.shared n).Made past)
    (h : (empty.after past).shared.owner m = (empty.after past).shared.owner n) :
    Related past (.shared m) (.shared n) := by
  induction past using List.reverseRecOn generalizing m n with
  | nil => cases hm
  | append_singleton past a ih =>
    obtain ⟨hpast, hknown⟩ := session_append_singleton.1 hs
    -- the handle that the action makes, beside one made before
    have hnext : ∀ {l}, a.makesShared = true → (Handle.shared l).Made past →
        (empty.after (past ++ [a])).shared.owner l =
          (empty.after (past ++ [a])).shared.owner (past.countP Action.makesShared) →
        Related (past ++ [a]) (.shared l) (.shared (past.countP Action.makesShared)) := by
      intro l hmakes hl h
      rw [owner_append hl, after_append_singleton, ← length_owners_after] at h
      rcases a.owner_length_perform hmakes (empty.after past) with ⟨rfl, howner⟩ | ⟨i, rfl, howner⟩
      · exact absurd (h.trans howner) (Nat.ne_of_lt (owner_lt hpast hl))
      · have hi := ih hpast hl (hknown _ rfl) (h.trans howner)
        exact .trans _ _ _ (hi.append _) (.rel _ _ ⟨past, [], rfl, rfl⟩)
    rcases made_append_singleton_iff.1 hm with hm | ⟨hmakes, rfl⟩
    · rcases made_append_singleton_iff.1 hn with hn | ⟨hmakes, rfl⟩
      · rw [owner_append hm, owner_append hn] at h
        exact (ih hpast hm hn h).append _
      · exact hnext hmakes hm h
    · rcases made_append_singleton_iff.1 hn with hn | ⟨-, rfl⟩
      · exact .symm _ _ (hnext hmakes hn h.symm)
      · exact .refl _

/-- The handles of a group are those that lead to one collector. -/
structure Gathers (past : List Action) (group : Set Handle) (k : Nat) : Prop where
  own : ∀ n, .own n ∉ group
  shared : ∀ n, (Handle.shared n).Made past →
    (.shared n ∈ group ↔ (empty.after past).shared.owner n = k)

theorem Gathers.init {group : Set Handle} (h : Gathers (past ++ later) group k) :
    Gathers past group k where
  own := h.own
  shared n hn := by rw [← owner_append hn later, h.shared n (hn.append later)]

theorem gathers_related (hs : Session session) (hn : (Handle.shared n).Made session) :
    Gathers session {h | Related session (.shared n) h} ((empty.after session).shared.owner n) where
  own m hr := nomatch owner?_eq_of_related hs hr
  shared m hm := by
    constructor
    · intro hr
      exact (Option.some.inj (owner?_eq_of_related hs hr)).symm
    · intro h
      exact related_of_owner_eq hs hn hm h.symm

/-- What is taken out of a collector in a session and what is left there are the reports told to
it. -/
theorem taken_append_held {group : Set Handle} (hs : Session past) (hg : Gathers past group k) :
    ((empty.transcript past).flatMap (Action.taken group)) ++ (empty.after past).shared.held k =
      past.flatMap (Action.told group) := by
  induction past using List.reverseRecOn with
  | nil => rfl
  | append_singleton past a ih =>
    obtain ⟨hpast, hknown⟩ := session_append_singleton.1 hs
    have hstep := a.taken_append_held (c := empty.after past) (k := k) hg.own fun n ha =>
      ⟨owner_lt hpast (hknown _ ha), hg.init.shared n (hknown _ ha)⟩
    calc (empty.transcript (past ++ [a])).flatMap (Action.taken group) ++
          (empty.after (past ++ [a])).shared.held k
        = (empty.transcript past).flatMap (Action.taken group) ++
            (Action.taken group (a, (a.perform (empty.after past)).1) ++
              (a.perform (empty.after past)).2.shared.held k) := by
          rw [transcript_append, after_append_singleton, List.flatMap_append, List.append_assoc]
          simp [transcript]
      _ = past.flatMap (Action.told group) ++ a.told group := by
          rw [hstep, ← List.append_assoc, ih hpast hg.init]
      _ = (past ++ [a]).flatMap (Action.told group) := by simp

theorem reports_eq_of_related (hs : Session session) (hr : Related session (.shared n) h) :
    (empty.after session).reports h =
      (empty.after session).shared.held ((empty.after session).shared.owner n) := by
  have howner := owner?_eq_of_related hs hr
  cases h with
  | own m => cases howner
  | shared m =>
    rw [Option.some.inj howner]
    rfl

/-- A clone begins with what its original has. -/
theorem reports_clone_append (past later : List Action) (n : Nat) :
    (empty.after (past ++ .clone (.own n) :: later)).reports ((Handle.own n).next past) =
      (empty.after past).reports (.own n) ++
        later.flatMap (Action.told {(Handle.own n).next past}) := by
  have hmade : ((Handle.own n).next past).Made (past ++ [.clone (.own n)]) := by
    simp [Handle.next, Handle.Made, Action.makesOwn]
  have hlater := reports_own_append hmade later
  rw [List.append_assoc, List.singleton_append] at hlater
  rw [Handle.next, hlater, after_append_singleton, ← length_own_after]
  exact congrArg (· ++ _) (empty.after past).own.reports_copy_length

/-- A handle sees the reports of a feed behind what it saw. -/
theorem reports_feed (hs : Session past) (hm : h.Made past) (f : Feed) :
    ((Action.feed h f).perform (empty.after past)).2.reports h =
      (empty.after past).reports h ++ f.alone.2 := by
  cases h with
  | own n =>
    have hlt : n < (empty.after past).own.collectors.length := (length_own_after past).symm ▸ hm
    have hfeed := (Action.feed (.own n) f).reports_own_perform hlt
    rwa [Action.told, if_pos (Set.mem_singleton _)] at hfeed
  | shared n =>
    have hheld := (empty.after past).shared.held_report f.alone.2
      (k := (empty.after past).shared.owner n) (owner_lt hs hm)
    rw [if_pos rfl] at hheld
    rw [Action.perform_feed_shared]
    simpa [reports, Pool.reports, Pool.held, Pool.owner_report] using hheld

/-- Take any session. What is taken out through a shared handle and the handles that are its clones,
one by way of another, and what each of them sees at the end, are together the reports told through
them, in order. The handle of a collector of its own sees what it saw at any time and then what is
told through it, and a clone of it sees what it saw then and what is told through the clone. A feed
into a handle, whatever that holds, answers what it answers into a fresh sink, and the handle sees
the reports of the fresh sink behind what it saw. -/
theorem reports_neither_lost_nor_doubled :
    (∀ session, Session session → ∀ n, (Handle.shared n).Made session →
      let group := {h | Related session (.shared n) h}
      ∃ ds, (∀ h ∈ group, ((Action.snapshot h).perform (empty.after session)).1 = .reports ds) ∧
        (empty.transcript session).flatMap (Action.taken group) ++ ds =
          session.flatMap (Action.told group)) ∧
    (∀ past later n, (Handle.own n).Made past →
      (empty.after (past ++ later)).reports (.own n) =
        (empty.after past).reports (.own n) ++ later.flatMap (Action.told {.own n}) ∧
      let copy := (Handle.own n).next past
      (empty.after (past ++ .clone (.own n) :: later)).reports copy =
        (empty.after past).reports (.own n) ++ later.flatMap (Action.told {copy})) ∧
    (∀ past, Session past → ∀ h, h.Made past → ∀ f,
      ((Action.feed h f).perform (empty.after past)).1 = (f.into Diagnostics.report []).1 ∧
      ((Action.feed h f).perform (empty.after past)).2.reports h =
        (empty.after past).reports h ++ (f.into Diagnostics.report []).2) ∧
    ∀ f : Feed, f.into Diagnostics.report [] = f.alone := by
  refine ⟨fun session hs n hn => ?_, fun past later n hn => ?_, fun past hs h hm f => ?_,
    Feed.into_nil⟩
  · refine ⟨_, fun h hr => ?_, taken_append_held hs (gathers_related hs hn)⟩
    exact congrArg Answer.reports (reports_eq_of_related hs hr)
  · exact ⟨reports_own_append hn later, reports_clone_append past later n⟩
  · rw [Feed.into_nil]
    exact ⟨congrArg Prod.fst (f.into_eq _ _), reports_feed hs hm f⟩

theorem reports_neither_lost_nor_doubled_clones :
    let told : Action := .feed (.shared 1) (.json "[1,]" .standard)
    let session := [.createShared, .clone (.shared 0), told, .take 0, told, .createOwn]
    let group := {h | Related session (.shared 0) h}
    Session session ∧ (Handle.shared 0).Made session ∧
      (∃ ds, (∀ h ∈ group, ((Action.snapshot h).perform (empty.after session)).1 = .reports ds) ∧
        (empty.transcript session).flatMap (Action.taken group) ++ ds =
          session.flatMap (Action.told group)) ∧
      (Handle.own 0).Made session ∧
      (empty.after (session ++ [.clone (.own 0)])).reports (.own 1) =
        (empty.after session).reports (.own 0) ∧
      ((Action.feed (.shared 1) (.tokens "#" .json)).perform (empty.after session)).2.reports
          (.shared 1) =
        (empty.after session).reports (.shared 1) ++
          ((Feed.tokens "#" .json).into Diagnostics.report []).2 := by
  intro told session group
  have hs : Session session := by decide
  have hshared : (Handle.shared 0).Made session := by decide
  have hown : (Handle.own 0).Made session := by decide
  obtain ⟨hgroups, hcopies, hfeeds, -⟩ := reports_neither_lost_nor_doubled
  refine ⟨hs, hshared, hgroups session hs 0 hshared, hown, ?_, ?_⟩
  · exact (hcopies session [] 0 hown).2.trans (List.append_nil _)
  · exact (hfeeds session hs (.shared 1) (by decide) (.tokens "#" .json)).2

end

end Resilient
