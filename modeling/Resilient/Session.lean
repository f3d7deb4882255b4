import Resilient.Reporting

/-!
# Sessions

A session is a list of actions on handles of collectors: handles are made and cloned, reports are
told to them, one by one or by a reader at work, and looked at or taken out. `Action.perform` says
what an action answers and what it leaves of the collectors, `Collectors.transcript` goes through
all actions of a session, and `Collectors.after` is what a session leaves.
-/

namespace Resilient

/-- A handle of a collector of its own, or of a collector that handles can share. The handles of
each sort are numbered in the order in which they are made. -/
inductive Handle where
  | own (n : Nat)
  | shared (n : Nat)
  deriving DecidableEq

/-- The collectors that handles lead to. -/
structure Collectors where
  own : Gallery
  shared : Pool

namespace Collectors

/-- No handles yet. -/
def empty : Collectors := ⟨⟨[]⟩, ⟨[], []⟩⟩

/-- The reports seen through a handle. -/
def reports (c : Collectors) : Handle → Diagnostics
  | .own n => c.own.reports n
  | .shared n => c.shared.reports n

/-- A handle as a sink. -/
def report (h : Handle) : Sink Collectors := fun c d =>
  match h with
  | .own n => { c with own := c.own.report n [d] }
  | .shared n => { c with shared := c.shared.report n [d] }

end Collectors

/-- A list as a sink. -/
def Diagnostics.report : Sink Diagnostics := fun ds d => ds ++ [d]

/-- What tells reports to a sink. -/
inductive Feed where
  | report (d : Diagnostic)
  | tokens (source : String) (d : Dialect)
  | json (source : String) (options : Json.Options)
  | expression (source : String) (options : Expression.Options)

/-- What an action answers. -/
inductive Answer where
  | nothing
  | tokens (ts : List Token)
  | value (v : Value)
  | tree (n : Node)
  | reports (ds : Diagnostics)

namespace Feed

/-- The answer to a feed, and the sink that its reports are told to. -/
def into {σ : Type} (sink : Sink σ) (s : σ) : Feed → Answer × σ
  | report d => (.nothing, sink s d)
  | tokens source d =>
    let (ts, s) := tokenizeInto sink source d s
    (.tokens ts, s)
  | json source options =>
    let (v, s) := Json.parseInto sink source options s
    (.value v, s)
  | expression source options =>
    let (n, s) := Expression.parseInto sink source options s
    (.tree n, s)

/-- The answer to a feed, and its reports. -/
def alone : Feed → Answer × Diagnostics
  | report d => (.nothing, [d])
  | tokens source d => (.tokens (tokenize source d).1, (tokenize source d).2)
  | json source options => (.value (Json.parse source options).1, (Json.parse source options).2)
  | expression source options =>
    (.tree (Expression.parse source options).1, (Expression.parse source options).2)

end Feed

/-- An action on handles. -/
inductive Action where
  | createOwn
  | createShared
  | clone (h : Handle)
  | feed (h : Handle) (f : Feed)
  /-- All reports are taken out through a shared handle. -/
  | take (n : Nat)
  | snapshot (h : Handle)

namespace Action

/-- The answer to an action, and the collectors behind it. -/
def perform (c : Collectors) : Action → Answer × Collectors
  | createOwn => (.nothing, { c with own := c.own.create })
  | createShared => (.nothing, { c with shared := c.shared.create })
  | clone (.own n) => (.nothing, { c with own := c.own.copy n })
  | clone (.shared n) => (.nothing, { c with shared := c.shared.share n })
  | feed h f => f.into (Collectors.report h) c
  | take n =>
    let (ds, p) := c.shared.take n
    (.reports ds, { c with shared := p })
  | snapshot h => (.reports (c.reports h), c)

/-- The handle that an action works on. -/
def handle? : Action → Option Handle
  | clone h | feed h _ | snapshot h => some h
  | take n => some (.shared n)
  | createOwn | createShared => none

/-- Actions that make a handle of a collector of its own. -/
def makesOwn : Action → Bool
  | createOwn | clone (.own _) => true
  | _ => false

/-- Actions that make a handle of a collector that can be shared. -/
def makesShared : Action → Bool
  | createShared | clone (.shared _) => true
  | _ => false

end Action

namespace Handle

/-- The actions so far made the handle. -/
def Made (past : List Action) : Handle → Prop
  | own n => n < past.countP Action.makesOwn
  | shared n => n < past.countP Action.makesShared

instance (past : List Action) : (h : Handle) → Decidable (h.Made past)
  | own _ => Nat.decLt _ _
  | shared _ => Nat.decLt _ _

/-- The handle that is made next as a clone of another. -/
def next (past : List Action) : Handle → Handle
  | own _ => own (past.countP Action.makesOwn)
  | shared _ => shared (past.countP Action.makesShared)

end Handle

namespace Collectors

/-- The actions with their answers, from the first on. -/
def transcript (c : Collectors) : List Action → List (Action × Answer)
  | [] => []
  | a :: later => (a, (a.perform c).1) :: transcript (a.perform c).2 later

/-- The collectors behind some actions. -/
def after (c : Collectors) (actions : List Action) : Collectors :=
  actions.foldl (fun c a => (a.perform c).2) c

end Collectors

/-- Behind the actions of the past, no action works on a handle that is not made yet. -/
def SessionFrom (past : List Action) : List Action → Prop
  | [] => True
  | a :: later => (∀ h ∈ a.handle?, h.Made past) ∧ SessionFrom (past ++ [a]) later

instance decidableSessionFrom :
    (past actions : List Action) → Decidable (SessionFrom past actions)
  | _, [] => .isTrue trivial
  | past, a :: later =>
    have := decidableSessionFrom (past ++ [a]) later
    inferInstanceAs (Decidable (_ ∧ _))

/-- No action works on a handle that is not made yet. -/
def Session (actions : List Action) : Prop := SessionFrom [] actions

instance (actions : List Action) : Decidable (Session actions) :=
  inferInstanceAs (Decidable (SessionFrom [] actions))

end Resilient
