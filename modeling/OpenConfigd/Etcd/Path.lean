import Mathlib.Data.List.Basic
import OpenConfigd.Quaggad.RouteMap

/-!
# The keys of etcd

The handlers of a put and of a delete go by the components of the key after `services`. An index
or a slice out of range is `none`.

* `getFunctionalityPathFromKey_eq`: what comes after `services` is found, and no component that is
  not there is indexed;
* `etcdKeyDelete_isSome`: nor is one when a key is deleted;
* `etcdKeyValueParse_isSome`: a put does so just for a `command` without a name.
-/

namespace OpenConfigd.Etcd

open Quaggad (atoiValue)

/-! ## The path of a key -/

/-- The text of some bytes, a character for each. -/
def text (bytes : List UInt8) : String := String.ofList (bytes.map fun b => Char.ofNat b.toNat)

/-- The bytes of a text of bytes. -/
def bytes (text : String) : List UInt8 := text.toList.map fun c => UInt8.ofNat c.toNat

/-- `strings.FieldsFunc` of a key at the slashes. -/
def fields (key : List UInt8) : List String :=
  ((key.splitOn 47).filter fun bytes => bytes ≠ []).map text

/-- `path[n:]`. -/
def slice (n : ℕ) (path : List String) : Option (List String) :=
  if n ≤ path.length then some (path.drop n) else none

/-- One of the names that are served. -/
def functionality (name : String) : Bool :=
  name = "bgp" || name = "vrf" || name = "bgp_wan" || name = "quagga" || name = "command"

/-- `getFunctionalityPathFromKey` from `services` on. -/
def servicesPath (loc : Bool) (path : List String) : Option (List String × Bool) := do
  if (← path[0]?) ≠ "services" then
    some ([], loc)
  else
    let path ← slice 1 path
    if functionality (← path[0]?) then
      some (path, loc)
    else
      some ([], loc)

/-- `getFunctionalityPathFromKey`. -/
def getFunctionalityPathFromKey (key : List UInt8) : Option (List String × Bool) := do
  let path := fields key
  if path.length < 3 then
    some ([], false)
  else
    let root ← path[0]?
    let loc : Bool := root = "local"
    if root ≠ "local" ∧ root ≠ "config" then
      some ([], loc)
    else
      let path ← slice 1 path
      if (← path[0]?) = "devices" then
        if path.length < 4 then
          some ([], loc)
        else
          servicesPath loc (← slice 2 path)
      else
        servicesPath loc path

/-- What a key is about: the components from the name of the functionality on, under `config` or
`local` or a device there. -/
def served : List String → List String
  | root :: "services" :: name :: rest =>
    if (root = "local" ∨ root = "config") ∧ functionality name then name :: rest else []
  | root :: "devices" :: _ :: "services" :: name :: rest =>
    if (root = "local" ∨ root = "config") ∧ functionality name then name :: rest else []
  | _ => []

/-! ## The handlers -/

/-- A call that the handlers make. -/
inductive Request where
  | gobgpNeighborAdd (address body : String)
  | gobgpParse (body : String)
  | quaggaConfigSync (value : List UInt8) (vrfId : Int)
  | vrfParse (vrfId : Int) (body : String)
  | gobgpWanParse (body : String) (loc : Bool)
  | dhcpStatusUpdate
  | quaggaStatusUpdate
  | gobgpStatusUpdate
  | ospfStatusUpdate
  | gobgpNeighborDelete (address : String)
  | quaggaDelete (vrfId : Int)
  | vrfDelete (vrfId : Int)
  | gobgpWanStop (loc : Bool)
  | processQuaggaConfigDelete (vrfId : Int)
  deriving DecidableEq

/-- The call of `EtcdKeyValueParse` for a `command`. -/
def commandRequest (name : String) : List Request :=
  if name = "dhcp" then [.dhcpStatusUpdate]
  else if name = "bgp_lan" then [.quaggaStatusUpdate]
  else if name = "bgp_wan" then [.gobgpStatusUpdate]
  else if name = "ospf" then [.ospfStatusUpdate]
  else []

/-- The call of `EtcdKeyValueParse` for a path; the number of a VRF is used also after an error. -/
def putRequest (path : List String) (loc : Bool) (value : List UInt8) (body : String) :
    Option (List Request) := do
  let name ← path[0]?
  if name = "bgp" then
    if path.length = 3 then
      some [.gobgpNeighborAdd (← path[2]?) body]
    else
      some [.gobgpParse body]
  else if name = "quagga" then
    if path.length ≤ 1 then
      some []
    else
      some [.quaggaConfigSync value (atoiValue (← path[1]?))]
  else if name = "vrf" then
    if path.length ≤ 1 then
      some []
    else
      some [.vrfParse (atoiValue (← path[1]?)) body]
  else if name = "bgp_wan" then
    some [.gobgpWanParse body loc]
  else if name = "command" then
    some (commandRequest (← path[1]?))
  else
    some []

/-- `EtcdKeyValueParse`; `jsonBody` decodes a value to a `JsonBody` and takes its `Body`. -/
def etcdKeyValueParse (jsonBody : List UInt8 → Option String) (key value : List UInt8) :
    Option (List Request) := do
  let (path, loc) ← getFunctionalityPathFromKey key
  if path.length < 1 then
    some []
  else
    match jsonBody value with
    | none => some []
    | some body => putRequest path loc value body

/-- `vrfId` of `EtcdKeyDelete`. -/
def deleteVrfId (path : List String) : Option Int :=
  if path.length > 1 then path[1]?.map atoiValue else some 0

/-- The call of `EtcdKeyDelete` for a path. -/
def deleteRequest (path : List String) (loc : Bool) : Option (List Request) := do
  let name ← path[0]?
  if name = "bgp" then
    if path.length = 3 then
      some [.gobgpNeighborDelete (← path[2]?)]
    else
      some []
  else if name = "vrf" then
    let vrfId ← deleteVrfId path
    if vrfId = 0 then
      some []
    else if path.length > 2 then
      if (← path[2]?) = "bgp" then
        some [.quaggaDelete vrfId]
      else
        some [.vrfDelete vrfId]
    else
      some [.vrfDelete vrfId]
  else if name = "bgp_wan" then
    some [.gobgpWanStop loc]
  else if name = "quagga" then
    let vrfId ← deleteVrfId path
    if vrfId = 0 then
      some []
    else
      some [.processQuaggaConfigDelete vrfId]
  else
    some []

/-- `EtcdKeyDelete`. -/
def etcdKeyDelete (key : List UInt8) : Option (List Request) := do
  let (path, loc) ← getFunctionalityPathFromKey key
  if path.length < 1 then
    some []
  else
    deleteRequest path loc

/-! ## What is indexed -/

theorem servicesPath_cons (loc : Bool) (first second : String) (rest : List String) :
    servicesPath loc (first :: second :: rest) =
      some (if first = "services" ∧ functionality second then second :: rest else [], loc) := by
  by_cases hf : first = "services"
  · by_cases hn : functionality second = true <;> simp [servicesPath, slice, hf, hn]
  · simp [servicesPath, hf]

theorem served_eq_nil {root : String} {path : List String} (h : ¬ (root = "local" ∨ root = "config")) :
    served (root :: path) = [] := by
  unfold served
  split
  · next heq => cases heq; exact if_neg fun hand => h hand.1
  · next heq => cases heq; exact if_neg fun hand => h hand.1
  · rfl

theorem served_other {root first : String} {path : List String} (hs : first ≠ "services")
    (hd : first ≠ "devices") : served (root :: first :: path) = [] := by
  unfold served
  split
  · next heq => cases heq; exact absurd rfl hs
  · next heq => cases heq; exact absurd rfl hd
  · rfl

theorem served_services {root name : String} {rest : List String} (h : root = "local" ∨ root = "config") :
    served (root :: "services" :: name :: rest) = if functionality name then name :: rest else [] := by
  rw [served]
  simp [h]

theorem served_devices {root uuid first name : String} {rest : List String}
    (h : root = "local" ∨ root = "config") :
    served (root :: "devices" :: uuid :: first :: name :: rest) =
      if first = "services" ∧ functionality name then name :: rest else [] := by
  by_cases hf : first = "services"
  · subst hf
    rw [served]
    simp [h]
  · unfold served
    simp [hf]

theorem getFunctionalityPathFromKey_cons {key : List UInt8} {root first second : String}
    {rest : List String} (h : fields key = root :: first :: second :: rest) :
    getFunctionalityPathFromKey key =
      if root ≠ "local" ∧ root ≠ "config" then some ([], decide (root = "local"))
      else if first = "devices" then
        if (second :: rest).length + 1 < 4 then some ([], decide (root = "local"))
        else servicesPath (decide (root = "local")) rest
      else servicesPath (decide (root = "local")) (first :: second :: rest) := by
  have hlen : ¬ (root :: first :: second :: rest).length < 3 := by
    simp only [List.length_cons]
    omega
  rw [getFunctionalityPathFromKey, h, if_neg hlen]
  rfl

/-- The path of a key is found. -/
theorem getFunctionalityPathFromKey_eq (key : List UInt8) :
    ∃ loc, getFunctionalityPathFromKey key = some (served (fields key), loc) := by
  match hpath : fields key with
  | [] => exact ⟨_, by rw [getFunctionalityPathFromKey, hpath]; rfl⟩
  | [root] => exact ⟨false, by rw [getFunctionalityPathFromKey, hpath]; rfl⟩
  | [root, first] =>
    have hserved : served [root, first] = [] := by
      unfold served
      split
      · next heq => cases heq
      · next heq => cases heq
      · rfl
    exact ⟨false, by rw [getFunctionalityPathFromKey, hpath, hserved]; rfl⟩
  | root :: first :: second :: rest =>
    refine ⟨root = "local", ?_⟩
    rw [getFunctionalityPathFromKey_cons hpath]
    by_cases hr : root = "local" ∨ root = "config"
    · rw [if_neg fun h => hr.elim h.1 h.2]
      by_cases hd : first = "devices"
      · subst hd
        rw [if_pos rfl]
        match rest with
        | [] => rfl
        | [name] =>
          have hserved : served [root, "devices", second, name] = [] := by
            unfold served
            split
            · next heq => simp at heq
            · next heq => cases heq
            · rfl
          rw [hserved]
          rfl
        | name :: after :: rest =>
          have hlen : ¬ (second :: name :: after :: rest).length + 1 < 4 := by
            simp only [List.length_cons]
            omega
          rw [if_neg hlen, servicesPath_cons, served_devices hr]
      · rw [if_neg hd, servicesPath_cons]
        by_cases hs : first = "services"
        · subst hs
          rw [served_services hr]
          simp only [true_and]
        · rw [served_other hs hd, if_neg fun h => hs h.1]
    · rw [served_eq_nil hr, if_pos (not_or.mp hr)]

/-- The calls for a path of one component. -/
theorem putRequest_one (name : String) (loc : Bool) (value : List UInt8) (body : String) :
    putRequest [name] loc value body =
      if name = "bgp" then some [.gobgpParse body]
      else if name = "quagga" then some []
      else if name = "vrf" then some []
      else if name = "bgp_wan" then some [.gobgpWanParse body loc]
      else if name = "command" then none else some [] := rfl

/-- The calls for a longer path. -/
theorem putRequest_cons (name second : String) (rest : List String) (loc : Bool) (value : List UInt8)
    (body : String) : ∃ bgp, (∀ vrfId, .quaggaDelete vrfId ∉ bgp) ∧
      putRequest (name :: second :: rest) loc value body =
        if name = "bgp" then some bgp
        else if name = "quagga" then some [.quaggaConfigSync value (atoiValue second)]
        else if name = "vrf" then some [.vrfParse (atoiValue second) body]
        else if name = "bgp_wan" then some [.gobgpWanParse body loc]
        else if name = "command" then some (commandRequest second) else some [] := by
  obtain ⟨bgp, hno, hbgp⟩ : ∃ bgp, (∀ vrfId, Request.quaggaDelete vrfId ∉ bgp) ∧
      (if (name :: second :: rest).length = 3 then
        ((name :: second :: rest)[2]?).bind fun address => some [Request.gobgpNeighborAdd address body]
        else some [.gobgpParse body]) = some bgp := by
    split
    · match rest with
      | [third] => exact ⟨_, by simp, rfl⟩
    · exact ⟨_, by simp, rfl⟩
  refine ⟨bgp, hno, ?_⟩
  rw [← hbgp]
  rfl

theorem putRequest_isSome {path : List String} (hne : path ≠ []) (loc : Bool) (value : List UInt8)
    (body : String) : (putRequest path loc value body).isSome ↔ path ≠ ["command"] := by
  match path with
  | [name] =>
    rw [putRequest_one]
    split_ifs <;> simp [*]
  | name :: second :: rest =>
    refine iff_of_true ?_ fun h => by cases h
    obtain ⟨bgp, -, hput⟩ := putRequest_cons name second rest loc value body
    rw [hput]
    split_ifs <;> rfl

theorem deleteVrfId_eq (path : List String) : ∃ vrfId, deleteVrfId path = some vrfId := by
  unfold deleteVrfId
  split
  · next h => exact ⟨atoiValue path[1], by rw [List.getElem?_eq_getElem h]; rfl⟩
  · exact ⟨0, rfl⟩

theorem deleteRequest_isSome {path : List String} (hne : path ≠ []) (loc : Bool) :
    (deleteRequest path loc).isSome := by
  obtain ⟨vrfId, hvrf⟩ := deleteVrfId_eq path
  have hname : path[0]? = some (path.head hne) := by
    obtain ⟨name, rest, rfl⟩ := List.exists_cons_of_ne_nil hne
    rfl
  rw [deleteRequest, hvrf, hname]
  simp only [Option.bind_eq_bind, Option.bind_some]
  have hthird (h : 2 < path.length) : path[2]? = some path[2] := List.getElem?_eq_getElem h
  split_ifs with _ h _ _ h
  · rw [hthird (by omega)]
    rfl
  · rfl
  · rfl
  · rw [hthird h, Option.bind_some]
    split_ifs <;> rfl
  all_goals rfl

theorem etcdKeyValueParse_eq (jsonBody : List UInt8 → Option String) (key value : List UInt8) :
    ∃ loc, etcdKeyValueParse jsonBody key value =
      if served (fields key) = [] then some []
      else match jsonBody value with
        | none => some []
        | some body => putRequest (served (fields key)) loc value body := by
  obtain ⟨loc, hpath⟩ := getFunctionalityPathFromKey_eq key
  refine ⟨loc, ?_⟩
  rw [etcdKeyValueParse, hpath]
  simp

theorem etcdKeyDelete_eq (key : List UInt8) :
    ∃ loc, etcdKeyDelete key =
      if served (fields key) = [] then some [] else deleteRequest (served (fields key)) loc := by
  obtain ⟨loc, hpath⟩ := getFunctionalityPathFromKey_eq key
  refine ⟨loc, ?_⟩
  rw [etcdKeyDelete, hpath]
  simp

/-- A put indexes a component that is not there just for `command` without a name. -/
theorem etcdKeyValueParse_isSome (jsonBody : List UInt8 → Option String) (key value : List UInt8) :
    (etcdKeyValueParse jsonBody key value).isSome ↔
      ¬ ((jsonBody value).isSome ∧ served (fields key) = ["command"]) := by
  obtain ⟨loc, hput⟩ := etcdKeyValueParse_eq jsonBody key value
  rw [hput]
  by_cases hne : served (fields key) = []
  · simp [hne]
  · rw [if_neg hne]
    cases hbody : jsonBody value with
    | none => simp
    | some body => simpa using putRequest_isSome hne loc value body

/-- A delete indexes no component that is not there. -/
theorem etcdKeyDelete_isSome (key : List UInt8) : (etcdKeyDelete key).isSome := by
  obtain ⟨loc, hdelete⟩ := etcdKeyDelete_eq key
  rw [hdelete]
  split
  · rfl
  · next hne => exact deleteRequest_isSome hne loc

/-! ## What is called -/

theorem putRequest_vrf (id : String) (rest : List String) (loc : Bool) (value : List UInt8) (body : String) :
    putRequest ("vrf" :: id :: rest) loc value body = some [.vrfParse (atoiValue id) body] := by
  simp [putRequest]

theorem putRequest_quagga (id : String) (rest : List String) (loc : Bool) (value : List UInt8)
    (body : String) :
    putRequest ("quagga" :: id :: rest) loc value body = some [.quaggaConfigSync value (atoiValue id)] := by
  simp [putRequest]

/-- No put calls `QuaggaDelete`. -/
theorem putRequest_quaggaDelete {path : List String} {loc : Bool} {value : List UInt8} {body : String}
    {rs : List Request} (h : putRequest path loc value body = some rs) (vrfId : Int) :
    .quaggaDelete vrfId ∉ rs := by
  have hcommand (name : String) : .quaggaDelete vrfId ∉ commandRequest name := by
    unfold commandRequest
    split_ifs <;> simp
  match path with
  | [] => cases h
  | [name] =>
    rw [putRequest_one] at h
    split_ifs at h <;> (cases h; simp)
  | name :: second :: rest =>
    obtain ⟨bgp, hbgp, hput⟩ := putRequest_cons name second rest loc value body
    rw [hput] at h
    split_ifs at h <;> cases h <;> first | exact hcommand second | exact hbgp vrfId | simp

theorem deleteRequest_bgp {id : String} (rest : List String) (loc : Bool) (hid : atoiValue id ≠ 0) :
    deleteRequest ("vrf" :: id :: "bgp" :: rest) loc = some [.quaggaDelete (atoiValue id)] := by
  simp [deleteRequest, deleteVrfId, hid]

/-- A delete calls `QuaggaDelete` just for `bgp` of a VRF. -/
theorem deleteRequest_cases {path : List String} {loc : Bool} {rs : List Request}
    (h : deleteRequest path loc = some rs) :
    (∃ id rest, path = "vrf" :: id :: "bgp" :: rest ∧ atoiValue id ≠ 0) ∨
      ∀ vrfId, .quaggaDelete vrfId ∉ rs := by
  match path with
  | [] => cases h
  | [name] =>
    right
    simp [deleteRequest, deleteVrfId] at h
    split_ifs at h <;> (cases h; simp)
  | [name, second] =>
    right
    simp [deleteRequest, deleteVrfId] at h
    split_ifs at h <;> (cases h; simp)
  | name :: second :: third :: rest =>
    simp [deleteRequest, deleteVrfId] at h
    split_ifs at h <;> cases h <;> simp_all

end OpenConfigd.Etcd
