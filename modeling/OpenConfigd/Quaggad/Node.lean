import OpenConfigd.Config.Tree
import OpenConfigd.Go.Env
import OpenConfigd.Lib.LabelTree

/-!
# The configuration trees of quaggad

quaggad keeps the configuration as a tree of labels, one of what it runs and one of
what it is asked to validate (`quaggaConfigStateNode`): a SET adds the nodes of its
path, a DELETE cuts off the last one, and the two trees are compared below a path
(`quaggaConfigStateDiff`). The second half has the validators of `validator.go` and
the shape of a check, which writes lines and fails.
-/

namespace OpenConfigd.Quaggad

/-- What quaggad takes from Go: package `net`, `sort.Sort`, the text of a pointer, and the
orders in which the loops of the n-th message range over a map. -/
structure Go where
  /-- `net.ParseIP`: nothing for nil, else whether `To4` is not nil. -/
  parseIP : String → Option Bool
  /-- The address of `net.ParseCIDR`, as for `parseIP`; nothing for an error. -/
  parseCIDR : String → Option Bool
  /-- A pointer to a string, as `fmt` writes it. -/
  pointer : String → String
  /-- `sort.Sort` of a slice of strings, given `Less`. -/
  sort : (String → String → Bool) → List String → List String
  sort_perm : ∀ less l, (sort less l).Perm l
  sort_sorted : ∀ less l, StrictWeak less l → (sort less l).Pairwise fun a b => ¬ less b a
  /-- The order of the labels of a map. -/
  range : Nat → List String → List String
  range_perm : ∀ n l, (range n l).Perm l

/-- `quaggaConfigStateNode`: the root of a tree. -/
structure Node where
  tree : LabelTree String
  distinct : tree.Distinct

namespace Node

/-- `makeQuaggaConfigStateNode`. -/
def make : Node := ⟨.empty, .empty⟩

/-- `quaggaConfigStateSet`. -/
def quaggaConfigStateSet (config : Node) (path : List String) : Node :=
  ⟨config.tree.set path, config.distinct.set path⟩

/-- `quaggaConfigStateDelete`: the root is not deleted, nor a node whose label is empty. -/
def quaggaConfigStateDelete (config : Node) (path : List String) : Node :=
  if path.getLast? = some "" then config
  else ⟨config.tree.delete path, config.distinct.delete path⟩

/-- The new tree of `quaggaConfigStateSync`. -/
def sync (config : Node) : Node :=
  ⟨config.tree.copy, (LabelTree.copy_eq config.distinct).symm ▸ config.distinct⟩

/-- `lookup`: nothing is found at the empty path. -/
def lookup (config : Node) : List String → Option (LabelTree String)
  | [] => none
  | a :: path => config.tree.find (a :: path)

/-- `value`: the label below a path when there is just one. -/
def value (config : Node) (path : List String) : Option String :=
  match (config.lookup path).map LabelTree.labels with
  | some [label] => some label
  | _ => none

/-- `values`. -/
def values (config : Node) (path : List String) : List String :=
  ((config.lookup path).map LabelTree.labels).getD []

end Node

/-- `quaggaConfigStateDiff1`. -/
def quaggaConfigStateDiff1 : Option (LabelTree String) → Option (LabelTree String) → Bool
  | none, none => false
  | some _, none => true
  | none, some _ => true
  | some l, some r => l.differ r

/-- `quaggaConfigStateDiff`. -/
def quaggaConfigStateDiff (candidate running : Node) (path : List String) : Bool :=
  quaggaConfigStateDiff1 (candidate.lookup path) (running.lookup path)

/-! ## Below a path -/

namespace Node

/-- Below a path the two trees are the same set of paths, or there is nothing in both. -/
def SameAt (path : List String) (c d : Node) : Prop :=
  Option.Rel LabelTree.Same (c.lookup path) (d.lookup path)

variable {c d e : Node} {path : List String}

theorem lookup_eq (hp : path ≠ []) (c : Node) : c.lookup path = c.tree.find path := by
  cases path with
  | nil => exact absurd rfl hp
  | cons a path => rfl

theorem lookup_append (hp : path ≠ []) (c : Node) (rest : List String) :
    c.lookup (path ++ rest) = (c.lookup path).bind fun t => t.find rest := by
  rw [lookup_eq hp, lookup_eq (List.append_ne_nil_of_left_ne_nil hp rest), LabelTree.find_append]

theorem mem_values {label : String} (hp : path ≠ []) :
    label ∈ c.values path ↔ (c.lookup (path ++ [label])).isSome := by
  rw [lookup_append hp, values]
  cases c.lookup path with
  | none => simp
  | some t => simp [LabelTree.find, ← LabelTree.child_isSome]

/-- A tree that is found is one of distinct labels. -/
theorem lookup_distinct {t : LabelTree String} (h : c.lookup path = some t) : t.Distinct := by
  cases path with
  | nil => cases h
  | cons a path => exact c.distinct.find h

theorem values_nodup (c : Node) (path : List String) : (c.values path).Nodup := by
  rw [values]
  cases h : c.lookup path with
  | none => exact List.nodup_nil
  | some t => exact (lookup_distinct h).nodup

theorem sameAt_iff : SameAt path c d ↔ (c.lookup path = none ∧ d.lookup path = none) ∨
    ∃ t u, c.lookup path = some t ∧ d.lookup path = some u ∧ t.Same u := by
  rw [SameAt]
  constructor
  · intro h
    cases hc : c.lookup path with
    | none =>
      rw [hc] at h
      cases hd : d.lookup path with
      | none => exact .inl ⟨rfl, rfl⟩
      | some u =>
        rw [hd] at h
        nomatch h
    | some t =>
      rw [hc] at h
      cases hd : d.lookup path with
      | none =>
        rw [hd] at h
        nomatch h
      | some u =>
        rw [hd] at h
        cases h with
        | some h => exact .inr ⟨t, u, rfl, rfl, h⟩
  · rintro (⟨hc, hd⟩ | ⟨t, u, hc, hd, h⟩)
    · rw [hc, hd]
      exact .none
    · rw [hc, hd]
      exact .some h

namespace SameAt

protected theorem refl (path : List String) (c : Node) : SameAt path c c := by
  rw [sameAt_iff]
  cases h : c.lookup path with
  | none => exact .inl ⟨rfl, rfl⟩
  | some t => exact .inr ⟨t, t, rfl, rfl, .refl t⟩

protected theorem symm (h : SameAt path c d) : SameAt path d c := by
  rcases sameAt_iff.mp h with ⟨hc, hd⟩ | ⟨t, u, hc, hd, htu⟩
  · exact sameAt_iff.mpr (.inl ⟨hd, hc⟩)
  · exact sameAt_iff.mpr (.inr ⟨u, t, hd, hc, htu.symm⟩)

protected theorem trans (h : SameAt path c d) (h' : SameAt path d e) : SameAt path c e := by
  rcases sameAt_iff.mp h with ⟨hc, hd⟩ | ⟨t, u, hc, hd, htu⟩
  · rcases sameAt_iff.mp h' with ⟨-, he⟩ | ⟨t, u, hd', -, -⟩
    · exact sameAt_iff.mpr (.inl ⟨hc, he⟩)
    · rw [hd] at hd'
      nomatch hd'
  · rcases sameAt_iff.mp h' with ⟨hd', -⟩ | ⟨u', v, hd', he, huv⟩
    · rw [hd] at hd'
      nomatch hd'
    · rw [hd, Option.some.injEq] at hd'
      exact sameAt_iff.mpr (.inr ⟨t, v, hc, he, htu.trans (hd' ▸ huv)⟩)

theorem of_eq (h : c.lookup path = d.lookup path) : SameAt path c d := by
  rw [SameAt, h]
  exact SameAt.refl path d

/-- Further down the trees are the same too. -/
theorem append (hp : path ≠ []) (h : SameAt path c d) (rest : List String) :
    SameAt (path ++ rest) c d := by
  rw [SameAt, lookup_append hp, lookup_append hp]
  rcases sameAt_iff.mp h with ⟨hc, hd⟩ | ⟨t, u, hc, hd, htu⟩
  · rw [hc, hd]
    exact .none
  · rw [hc, hd]
    exact htu.find rest

theorem isSome_eq (h : SameAt path c d) : (c.lookup path).isSome = (d.lookup path).isSome := by
  rcases sameAt_iff.mp h with ⟨hc, hd⟩ | ⟨t, u, hc, hd, -⟩
  · rw [hc, hd]
  · rw [hc, hd]
    rfl

theorem values_perm (h : SameAt path c d) : (c.values path).Perm (d.values path) := by
  rw [values, values]
  rcases sameAt_iff.mp h with ⟨hc, hd⟩ | ⟨t, u, hc, hd, htu⟩
  · rw [hc, hd]
  · rw [hc, hd]
    exact htu.labels_perm (lookup_distinct hc) (lookup_distinct hd)

theorem value_eq (h : SameAt path c d) : c.value path = d.value path := by
  rw [value, value]
  rcases sameAt_iff.mp h with ⟨hc, hd⟩ | ⟨t, u, hc, hd, htu⟩
  · rw [hc, hd]
  · have hperm := htu.labels_perm (lookup_distinct hc) (lookup_distinct hd)
    rw [hc, hd, Option.map_some, Option.map_some]
    -- A list of one label has no other order, and one that has not just one keeps its length.
    rcases ht : t.labels with _ | ⟨a, _ | ⟨b, l⟩⟩
    · rw [ht] at hperm
      rw [List.nil_perm.mp hperm]
    · rw [ht] at hperm
      rw [List.singleton_perm.mp hperm]
    · rw [ht] at hperm
      rcases hu : u.labels with _ | ⟨a', _ | ⟨b', l'⟩⟩
      · rfl
      · rw [hu] at hperm
        exact absurd hperm.length_eq (by simp)
      · rfl

end SameAt

/-- What `quaggaConfigStateDiff` finds out. -/
theorem diff_eq_false : quaggaConfigStateDiff c d path = false ↔ SameAt path c d := by
  rw [quaggaConfigStateDiff, sameAt_iff]
  cases hc : c.lookup path with
  | none => cases hd : d.lookup path <;> simp [quaggaConfigStateDiff1]
  | some t =>
    cases hd : d.lookup path with
    | none => simp [quaggaConfigStateDiff1]
    | some u =>
      rw [quaggaConfigStateDiff1, LabelTree.differ_iff (lookup_distinct hc) (lookup_distinct hd)]
      simp

/-- A SET does not change what is below a path that it does not go through. -/
theorem lookup_set {rest : List String} (hp : ¬ path <+: rest) (c : Node) :
    (c.quaggaConfigStateSet rest).lookup path = c.lookup path := by
  cases path with
  | nil => rfl
  | cons a path => exact c.tree.find_set hp

/-- Nor does a DELETE, of a path that does not lead to it either. -/
theorem lookup_delete {rest : List String} (hp : ¬ path <+: rest) (hr : ¬ rest <+: path) (c : Node) :
    (c.quaggaConfigStateDelete rest).lookup path = c.lookup path := by
  rw [quaggaConfigStateDelete]
  split
  · rfl
  · cases path with
    | nil => rfl
    | cons a path => exact c.tree.find_delete hp hr

end Node

/-! ## Validators -/

/-- `validatorRange`. -/
def validatorRange (s : String) (min max : Int) : Bool :=
  match atoi s with
  | none => false
  | some i => !(i < min || i > max)

/-- `validatorInclude`. -/
def validatorInclude (s : String) (list : List String) : Bool := list.any (s == ·)

/-- `validatorIPv4Address`. -/
def validatorIPv4Address (go : Go) (s : String) : Bool := go.parseIP s == some true

/-- `validatorIPv4CIDR`. -/
def validatorIPv4CIDR (go : Go) (s : String) : Bool := go.parseCIDR s == some true

/-- `validatorIPv6Address`. -/
def validatorIPv6Address (go : Go) (s : String) : Bool := go.parseIP s == some false

/-- `validatorIPv6CIDR`. -/
def validatorIPv6CIDR (go : Go) (s : String) : Bool := go.parseCIDR s == some false

/-- `validatorPeer`. -/
def validatorPeer (go : Go) (s : String) : Bool :=
  s == "local" || validatorIPv4Address go s || validatorIPv6Address go s

/-- The characters of `\s` in a regular expression. -/
def isBlank (c : Char) : Bool := c == ' ' || c == '\t' || c == '\n' || c == '\r' || c == '\x0c'

/-- `validatorAsPathPrepend`: at most 24 numbers, with white space between them. -/
def validatorAsPathPrepend (s : String) : Bool :=
  let words := (s.toList.splitOnP isBlank).map String.ofList |>.filter (· != "")
  words.all (validatorRange · 1 4294967294) && words.length ≤ 24

/-- The regular expression `\d+:\d+`, of the whole text. -/
def isPair (s : List Char) : Bool :=
  match s.splitOnP (· == ':') with
  | [a, b] => !a.isEmpty && !b.isEmpty && a.all Char.isDigit && b.all Char.isDigit
  | _ => false

/-- `validatorCommunity`. -/
def validatorCommunity (s : String) : Bool :=
  validatorInclude s ["additive", "internet", "local-AS", "no-advertise", "no-export", "none"] ||
    isPair s.toList

/-- `validatorSource`. -/
def validatorSource (go : Go) (s : String) : Bool :=
  validatorIPv4Address go s || validatorIPv6Address go s

/-- The regular expression `^[-a-zA-Z0-9.]+$` for names. -/
def isName (s : String) : Bool :=
  !s.toList.isEmpty && s.toList.all fun c => c == '-' || c.isAlphanum || c == '.'

/-- `validatorConfediBGPASNCheck`. -/
def validatorConfediBGPASNCheck (candidate : Node) (s asNum : String) : Bool :=
  s != asNum &&
    (candidate.values ["protocols", "bgp", asNum, "neighbor"]).all fun neigh =>
      candidate.value ["protocols", "bgp", asNum, "neighbor", neigh, "remote-as"] != some s

/-- `validatorExistsPeerGroup`. -/
def validatorExistsPeerGroup (candidate : Node) (asNum peerGroup : String) : Bool :=
  (candidate.lookup ["protocols", "bgp", asNum, "peer-group", peerGroup]).isSome

/-- The lists and the route-maps below `policy` by their labels. -/
def validatorExists (candidate : Node) (label s : String) : Bool :=
  (candidate.lookup ["policy", label, s]).isSome

/-- `validatorExistsAccessList`. -/
def validatorExistsAccessList (candidate : Node) := validatorExists candidate "access-list"

/-- `validatorExistsAccessList6`. -/
def validatorExistsAccessList6 (candidate : Node) := validatorExists candidate "access-list6"

/-- `validatorExistsAsPathList`. -/
def validatorExistsAsPathList (candidate : Node) := validatorExists candidate "as-path-list"

/-- `validatorExistsCommunityList`. -/
def validatorExistsCommunityList (candidate : Node) := validatorExists candidate "community-list"

/-- `validatorExistsPrefixList`. -/
def validatorExistsPrefixList (candidate : Node) := validatorExists candidate "prefix-list"

/-- `validatorExistsPrefixList6`. -/
def validatorExistsPrefixList6 (candidate : Node) := validatorExists candidate "prefix-list6"

/-- `validatorExistsRouteMap`. -/
def validatorExistsRouteMap (candidate : Node) := validatorExists candidate "route-map"

/-! ## Checks -/

/-- What a check that fails writes, each line by its words, which `fmt.Fprintln` separates by
spaces. -/
abbrev Failure := List (List String)

/-- A check that fails under a condition. -/
def failIf (bad : Bool) (lines : Failure) : List Failure := if bad then [lines] else []

/-- A check of a value, where there is one. -/
def checkValue (v : Option String) (ok : String → Bool) (lines : String → Failure) : List Failure :=
  match v with
  | none => []
  | some s => failIf (!ok s) (lines s)

/-- Two values that may not both be there. -/
def checkBoth (v w : Option String) (lines : String → String → Failure) : List Failure :=
  match v, w with
  | some s, some t => [lines s t]
  | _, _ => []

@[simp] theorem failIf_eq_nil {bad : Bool} {lines : Failure} : failIf bad lines = [] ↔ bad = false := by
  cases bad <;> simp [failIf]

@[simp] theorem checkValue_eq_nil {v : Option String} {ok : String → Bool} {lines : String → Failure} :
    checkValue v ok lines = [] ↔ ∀ s, v = some s → ok s = true := by
  cases v <;> simp [checkValue]

end OpenConfigd.Quaggad
