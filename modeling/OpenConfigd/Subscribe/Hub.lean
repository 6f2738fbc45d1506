import OpenConfigd.Subscribe.Compare

/-!
# Subscribers and their queues

The part of `subscribe.go` that queues commands: the tree of subscribed paths,
the subscriptions on them, and `PathRegisterCommand`, which appends a command to
the subscriptions on the longest subscribed path it starts with. A subscription
(`SubPath`) is its number, a subscriber is its number, and a Go pointer to a
command is a `CommandRef`, whose number no other command has.
-/

namespace OpenConfigd

/-- A pointer to a command. -/
structure CommandRef where
  id : Nat
  command : Command
  deriving DecidableEq, Repr

/-- `SubPathLocal` and `SubPathRemote`: the subscriber it belongs to, whether it is
being synchronised, and the commands queued on it, by path. -/
structure SubPath where
  sub : Nat
  sync : Bool := false
  pathToCmd : List (String × List CommandRef) := []
  deriving DecidableEq, Repr

namespace SubPath

/-- `pathToCmdsMap.Append`. -/
def appendTo (path : String) (c : CommandRef) :
    List (String × List CommandRef) → List (String × List CommandRef)
  | [] => [(path, [c])]
  | (p, cs) :: m => if p = path then (p, cs ++ [c]) :: m else (p, cs) :: appendTo path c m

/-- `Append`. -/
def append (path : List String) (c : CommandRef) (sp : SubPath) : SubPath :=
  { sp with pathToCmd := appendTo ("|".intercalate path) c sp.pathToCmd }

/-- The commands queued on the subscription, in the order of `Commit`. -/
def commands (sp : SubPath) : List CommandRef := sp.pathToCmd.flatMap (·.2)

/-- `Len`. -/
def len (sp : SubPath) : Nat := (sp.pathToCmd.map fun p => p.2.length).sum

/-- `CommandClear`. -/
def commandClear (sp : SubPath) : SubPath := { sp with pathToCmd := [] }

end SubPath

/-- `Path`: the subscriptions on the path, and the longer paths. -/
structure Path where
  subPath : List Nat := []
  map : List (String × Path) := []

namespace Path

/-- `Map[lit]`. -/
def get (p : Path) (lit : String) : Option Path := (p.map.find? fun q => q.1 == lit).map (·.2)

/-- The loop of `PathRegisterCommand`: the tokens that match, and the subscriptions
on the last path that has any. -/
def walk : Path → List String → List String → Option (List Nat) → List String × Option (List Nat)
  | _, [], path, last => (path, last)
  | p, lit :: cmds, path, last =>
    match (p.get lit).or (p.get "*") with
    | none => (path, last)
    | some m => m.walk cmds (path ++ [lit]) (if m.subPath.isEmpty then last else some m.subPath)

/-- `RegisterPath`. -/
def register (id : Nat) : List String → Path → Path
  | [], p => { p with subPath := p.subPath ++ [id] }
  | lit :: path, p =>
    match p.get lit with
    | some _ =>
      { p with map := p.map.map fun q => if q.1 = lit then (lit, register id path q.2) else q }
    | none => { p with map := p.map ++ [(lit, register id path {})] }

end Path

/-- The subscribers, by number: whether they are remote. -/
structure Subscriber where
  remote : Bool
  deriving DecidableEq, Repr

/-- The variables of `subscribe.go`. -/
structure Hub where
  subs : List Subscriber := []
  subPaths : List SubPath := []
  root : Path := {}

namespace Hub

/-- The subscriptions that `PathRegisterCommand` appends a command to, and the path
it appends it under. -/
def targets (h : Hub) (c : Command) : List String × List Nat :=
  let (path, last) := h.root.walk c.cmds [] none
  (path, last.getD [])

/-- `PathRegisterCommand`. -/
def pathRegisterCommand (h : Hub) (c : CommandRef) (sync : Bool) : Hub :=
  let (path, ids) := h.targets c.command
  { h with
    subPaths := ids.foldl (fun sps j =>
      sps.modify j fun sp => if !sync || sp.sync then sp.append path c else sp) h.subPaths }

/-- The commands one after the other. -/
def registerAll (h : Hub) (cs : List CommandRef) (sync : Bool) : Hub :=
  cs.foldl (fun h c => h.pathRegisterCommand c sync) h

/-- The queues of a subscriber. -/
def pending (h : Hub) (i : Nat) : List SubPath := h.subPaths.filter fun sp => sp.sub = i

/-- The subscriber has a stream. -/
def isRemote (h : Hub) (i : Nat) : Bool := (h.subs[i]?.map (·.remote)).getD false

/-- `HasCommand`. -/
def hasCommand (h : Hub) (i : Nat) : Bool := ((h.pending i).map SubPath.len).sum ≠ 0

/-- `(*Subscriber).CommandClear`. -/
def commandClear (h : Hub) (i : Nat) : Hub :=
  { h with subPaths := h.subPaths.map fun sp => if sp.sub = i then sp.commandClear else sp }

/-- A subscription on a path, being synchronised. -/
def addSubPath (i : Nat) (h : Hub) (path : String) : Hub :=
  { h with
    subPaths := h.subPaths ++ [{ sub := i, sync := true }]
    root := h.root.register h.subPaths.length [path] }

/-- The part of `SubscribeRemoteAddMulti` before `SubscribeSync`: a subscription of
the subscriber on each path. A number without a subscriber stands for a new stream. -/
def subscribe (h : Hub) (i : Nat) (paths : List String) : Hub :=
  if i < h.subs.length then paths.foldl (addSubPath i) h
  else paths.foldl (addSubPath h.subs.length) { h with subs := h.subs ++ [⟨true⟩] }

/-- The subscriptions from a number on are no longer being synchronised. -/
def clearSync (h : Hub) (n : Nat) : Hub :=
  { h with
    subPaths := h.subPaths.mapIdx fun j sp => if n ≤ j then { sp with sync := false } else sp }

end Hub

end OpenConfigd
