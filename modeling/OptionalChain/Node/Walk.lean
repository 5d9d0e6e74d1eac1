import OptionalChain.Node.Basic

/-!
# Walks

A walk visits the nodes of some kinds, parents before their parts and parts in order. The
visitor carries a state and may end the walk.
-/

namespace OptionalChain

/-- The kinds of nodes that a visitor is shown. -/
inductive Hook where
  | binary
  | member
  | template
  | argument
  | spread
  | container
  | spreadChild
deriving DecidableEq, Repr

def Kind.hook? : Kind → Option Hook
  | .binary _ => some .binary
  | .member _ => some .member
  | .template => some .template
  | .argument _ => some .argument
  | .spread => some .spread
  | .jsx .container => some .container
  | .jsx .spreadChild => some .spreadChild
  | _ => none

/-- A visitor's state with its wish to go on or to stop. -/
inductive Flow (σ : Type) where
  | go (state : σ)
  | stop (state : σ)

namespace Flow

variable {σ : Type}

def state : Flow σ → σ
  | go s => s
  | stop s => s

end Flow

/-- A visitor sees a hook and its node. -/
abbrev Visitor (σ : Type) := Hook → Node → σ → Flow σ

/-- A walk under way: the state of its visitor, and whether that has asked to stop. -/
structure Walker (σ : Type) where
  state : σ
  stopped : Bool := false

def Walker.flow {σ : Type} (w : Walker σ) : Flow σ :=
  if w.stopped then .stop w.state else .go w.state

namespace Node

variable {σ : Type}

mutual

/-- Only the nodes that the visitor is shown look at whether the walk was stopped; a walk goes
through all others in any case. -/
def walkFrom (visit : Visitor σ) : Node → Walker σ → Walker σ
  | .mk kind span children, w =>
    match kind.hook? with
    | none => walkAllFrom visit children w
    | some hook =>
      if w.stopped then w
      else
        match visit hook (.mk kind span children) w.state with
        | .stop s => ⟨s, true⟩
        | .go s => walkAllFrom visit children { w with state := s }

def walkAllFrom (visit : Visitor σ) : List Node → Walker σ → Walker σ
  | [], w => w
  | n :: ns, w => walkAllFrom visit ns (walkFrom visit n w)

end

def walk (visit : Visitor σ) (n : Node) (s : σ) : Flow σ :=
  (n.walkFrom visit { state := s }).flow

/-- Every visit of a whole walk in order. -/
def visits (n : Node) : List (Hook × Node) :=
  n.preorder.filterMap fun m => m.kind.hook?.map (·, m)

/-- Collects visits until there are `limit` of them. -/
def collect (limit : Option Nat) : Visitor (List (Hook × Node)) := fun hook n seen =>
  let seen := seen ++ [(hook, n)]
  if limit.any (· ≤ seen.length) then .stop seen else .go seen

end Node

end OptionalChain
