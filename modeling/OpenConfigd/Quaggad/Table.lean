import OpenConfigd.Cmd.Words
import OpenConfigd.Quaggad.Converge

/-!
# The parser of quaggad

`quaggaConfig` runs the callback that `configParser` finds for a path (`tableCommands`). What the
policy lists need of the commands (`PolicyTable`) holds when below each kind of list the table has
callbacks of this kind only (`tableCommands_policy`): a path below the kind is not read as one of
another kind, whatever follows.
-/

namespace OpenConfigd.Quaggad

variable {σ : Type} {net : Cmd.Net} {cmds : List (List String × Callback σ)}
  {routeMaps : Node → Node → Option (List (List String))}

/-- The commands of a parser that has these installed. -/
def tableCommands (net : Cmd.Net) (cmds : List (List String × Callback σ))
    (routeMaps : Node → Node → Option (List (List String))) : Commands σ where
  parseCmd path :=
    let r := Cmd.parseCmd net (Cmd.newParser cmds) path
    if r.result = .success then r.fn else none
  routeMaps

/-- The callback of a path is one that is installed for what the path is read as. -/
theorem exists_of_parseCmd {path : List String} {fn : Callback σ}
    (h : (tableCommands net cmds routeMaps).parseCmd path = some fn) :
    ∃ q args, Cmd.Reads net cmds [] (Cmd.written (path.map String.toList)) q args ∧ Cmd.installed cmds q = some fn := by
  rw [tableCommands] at h
  dsimp only at h
  split at h
  · rename_i hresult
    have hanswer : (Cmd.parseCmd net (Cmd.newParser cmds) path).answer = (.success, some fn, _) :=
      Prod.ext hresult (Prod.ext h rfl)
    rw [Cmd.parseCmd_eq, Cmd.parseLine, Cmd.parse_success_iff _ _ [] _ [] (Nat.lt_succ_self _) rfl] at hanswer
    obtain ⟨q, args, hread, hfn, -⟩ := hanswer
    exact ⟨q, args, hread, hfn⟩
  · cases h

theorem map_name_scan (words : List String) : (words.map Cmd.scan).map Cmd.Key.name = words := by
  rw [List.map_map]
  exact List.map_id'' Cmd.scan_name words

theorem stands_policy : Cmd.Stands net (Cmd.scan "policy") "policy".toList := .keyword (by decide)

theorem stands_label (kind : Kind) : Cmd.Stands net (Cmd.scan kind.label) kind.label.toList := by
  cases kind with
  | accessList => exact .keyword (by decide)
  | accessList6 => exact .keyword (by decide)
  | asPathList => exact .keyword (by decide)
  | communityList => exact .keyword (by decide)
  | prefixList => exact .keyword (by decide)
  | prefixList6 => exact .keyword (by decide)

/-- The table of quaggad below `policy`. -/
structure PolicyRows (cmds : List (List String × Callback σ)) : Prop where
  table : Cmd.Table cmds
  kind : ∀ kind : Kind, ∃ x ∈ cmds, ["policy", kind.label] <+: x.1
  list : ∀ kind : Kind, ∀ x ∈ cmds, ["policy", kind.label] <+: x.1 → x.2 = .list kind
  policy : ∀ x ∈ cmds, x.1 ≠ ["policy"]

theorem PolicyRows.next (h : PolicyRows cmds) (kind : Kind) :
    ∃ x ∈ cmds, [Cmd.scan "policy", Cmd.scan kind.label] <+: x.1.map Cmd.scan := by
  obtain ⟨x, hx, hp⟩ := h.kind kind
  exact ⟨x, hx, hp.map Cmd.scan⟩

/-- The parser finds what the policy lists need. -/
theorem tableCommands_policy (net : Cmd.Net) (cmds : List (List String × Callback σ))
    (routeMaps : Node → Node → Option (List (List String))) (h : PolicyRows cmds) :
    PolicyTable (tableCommands net cmds routeMaps) where
  list kind rest fn hfn := by
    obtain ⟨q, args, hread, hq⟩ := exists_of_parseCmd hfn
    obtain ⟨tail, htail, hline⟩ := Cmd.written_append ["policy".toList, kind.label.toList]
      (List.cons_ne_nil _ _) (rest.map String.toList)
    have hbegins : [Cmd.scan "policy", Cmd.scan kind.label] <+: q := by
      refine Cmd.Reads.begins h.table (p := []) ?_ (h.next kind) htail (hline ▸ hread)
      exact .cons stands_policy (.cons (stands_label kind) .nil)
    obtain ⟨x, hx, rfl, rfl⟩ := Cmd.exists_of_installed hq
    refine h.list kind x hx ?_
    have hnames := hbegins.map Cmd.Key.name
    rw [map_name_scan] at hnames
    simpa only [List.map_cons, List.map_nil, Cmd.scan_name] using hnames
  policy := by
    rw [Option.eq_none_iff_forall_ne_some]
    intro fn hfn
    obtain ⟨q, args, hread, hq⟩ := exists_of_parseCmd hfn
    obtain ⟨x, hx, rfl, -⟩ := Cmd.exists_of_installed hq
    have hnext : Cmd.Next cmds [] (Cmd.scan "policy") := (Cmd.next_of_begins (h.next .accessList)).1
    have hline : Cmd.written (["policy"].map String.toList) = "policy".toList ++ [] := by
      rw [List.append_nil]
      exact Cmd.written_singleton _
    rw [hline, Cmd.reads_iff (stands_policy.fits h.table hnext (.inl rfl)), stands_policy.rest_eq (.inl rfl)] at hread
    rcases hread with ⟨-, -, hx', -⟩ | ⟨hne, -⟩
    · refine h.policy x hx ?_
      have hnames := congrArg (List.map Cmd.Key.name) hx'
      rw [map_name_scan] at hnames
      exact hnames
    · exact hne rfl

/-- What `initConfig` installs below the name of a list. -/
def Kind.rows : Kind → List (List String)
  | accessList => listRows ++
    [["rule", "WORD", "destination", "any"], ["rule", "WORD", "destination", "host", "A.B.C.D"],
      ["rule", "WORD", "destination", "inverse-mask", "A.B.C.D"],
      ["rule", "WORD", "destination", "network", "A.B.C.D"], ["rule", "WORD", "destination"],
      ["rule", "WORD", "source", "any"], ["rule", "WORD", "source", "host", "A.B.C.D"],
      ["rule", "WORD", "source", "inverse-mask", "A.B.C.D"],
      ["rule", "WORD", "source", "network", "A.B.C.D"], ["rule", "WORD", "source"]]
  | accessList6 => listRows ++
    [["rule", "WORD", "source", "any"], ["rule", "WORD", "source", "exact-match"],
      ["rule", "WORD", "source", "network", "X:X::X:X/M"], ["rule", "WORD", "source"]]
  | asPathList => listRows ++ [["rule", "WORD", "regex", "WORD"]]
  | communityList => listRows ++ [["rule", "WORD", "regex", "WORD"]]
  | prefixList => listRows ++
    [["rule", "WORD", "ge", "WORD"], ["rule", "WORD", "le", "WORD"], ["rule", "WORD", "prefix", "A.B.C.D/M"]]
  | prefixList6 => listRows ++
    [["rule", "WORD", "ge", "WORD"], ["rule", "WORD", "le", "WORD"], ["rule", "WORD", "prefix", "X:X::X:X/M"]]
where
  /-- Those that all kinds have. -/
  listRows : List (List String) :=
    [[], ["description", "WORD"], ["rule", "WORD"], ["rule", "WORD", "action", "WORD"],
      ["rule", "WORD", "description", "WORD"]]

/-- The kinds, in the order of `initConfig`. -/
def Kind.all : List Kind := [.accessList, .accessList6, .asPathList, .communityList, .prefixList, .prefixList6]

/-- The commands of `initConfig` for the six kinds of lists, with the check that their callbacks make. -/
def policyRows : List (List String × Callback Unit) :=
  Kind.all.flatMap fun kind => kind.rows.map fun row => ("policy" :: kind.label :: "WORD" :: row, .list kind)

theorem mem_policyRows {x : List String × Callback Unit} :
    x ∈ policyRows ↔ ∃ kind : Kind, ∃ row ∈ kind.rows, ("policy" :: kind.label :: "WORD" :: row, .list kind) = x := by
  have hkinds : ∀ kind : Kind, kind ∈ Kind.all := by
    intro kind
    cases kind <;> decide
  simp only [policyRows, List.mem_flatMap, List.mem_map, hkinds, true_and]

theorem policyRows_rows : PolicyRows policyRows where
  table := ⟨by decide +kernel, by decide +kernel⟩
  kind kind := ⟨_, mem_policyRows.mpr ⟨kind, [], by cases kind <;> decide, rfl⟩, ["WORD"], rfl⟩
  list kind x hx hp := by
    obtain ⟨kind', row, -, rfl⟩ := mem_policyRows.mp hx
    have hlabel : kind.label = kind'.label := by simpa [List.cons_prefix_cons] using hp
    have hkind : some kind = some kind' := by rw [← kindOf_label, hlabel, kindOf_label]
    rw [Option.some.inj hkind]
  policy x hx h := by
    obtain ⟨kind', row, -, rfl⟩ := mem_policyRows.mp hx
    simp at h

theorem tableCommands_policyRows : PolicyTable (tableCommands ⟨fun _ => none⟩ policyRows fun _ _ => some []) :=
  tableCommands_policy ⟨fun _ => none⟩ policyRows (fun _ _ => some []) policyRows_rows

end OpenConfigd.Quaggad
