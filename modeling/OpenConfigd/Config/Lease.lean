import OpenConfigd.Config.LeaseFile

/-!
# Reading lease files

`LoadLease` on lease files. The map it returns is that of the `readings` of the file
(`loadLeaseItems_lease`): a step lemma for each of the address of a lease, a `;` and a
`}`, and the run of the loop from them. The entries are those of the lease blocks just
when the readings make no difference (`loadLease_iff`), as in a tidy file
(`tidy_harmless`).
-/

namespace OpenConfigd

/-! ## Values -/

namespace LeaseValue

@[simp] theorem update_address (cmds : List String) (v : LeaseValue) :
    (v.update cmds).address = v.address := by
  unfold update
  split <;> rfl

/-- A value after statements. -/
def run (v : LeaseValue) (cmds : List (List String)) : LeaseValue :=
  cmds.foldl (fun v c => v.update c) v

end LeaseValue

theorem lastValue_concat (keyword : String) (cmds : List (List String)) (c : List String) :
    lastValue keyword (cmds ++ [c]) =
      if c.head? = some keyword then c.getLastD "" else lastValue keyword cmds := by
  rw [lastValue, List.filter_append, List.filter_singleton]
  by_cases hc : c.head? = some keyword
  · simp [hc]
  · simp [hc, lastValue]

theorem LeaseValue.update_eq (cmds : List String) (v : LeaseValue) : v.update cmds =
    { address := v.address
      hardware := if cmds.head? = some "hardware" then cmds.getLastD "" else v.hardware
      clientHostName :=
        if cmds.head? = some "client-hostname" then cmds.getLastD "" else v.clientHostName } := by
  unfold update
  split
  · simp
  · simp
  · next h₁ h₂ =>
    have hne (k : String) (hk : ∀ t, cmds ≠ k :: t) : cmds.head? ≠ some k := by
      cases cmds with
      | nil => simp
      | cons c t => exact fun h => hk t (by rw [Option.some.inj h])
    rw [if_neg (hne _ h₁), if_neg (hne _ h₂)]

/-- A new lease after statements. -/
theorem LeaseValue.run_new (address : String) (cmds : List (List String)) :
    ({ address } : LeaseValue).run cmds = LeaseCommands.value ⟨address, cmds⟩ := by
  induction cmds using List.reverseRecOn with
  | nil => rfl
  | append_singleton cmds c ih =>
    have hrun : ({ address } : LeaseValue).run (cmds ++ [c]) =
        (({ address } : LeaseValue).run cmds).update c := List.foldl_concat ..
    rw [hrun, ih, update_eq, LeaseCommands.value, LeaseCommands.value, lastValue_concat,
      lastValue_concat]

/-! ## The reader -/

namespace LeaseState

/-- The lease the map has at an address. -/
def lease (st : LeaseState) (address : String) : Option LeaseValue :=
  (st.leaseMap.lookup address).bind (st.values[·]?)

/-- The lease that statements change. -/
def current (st : LeaseState) : Option LeaseValue := st.leaseValue.bind (st.values[·]?)

/-- The map has the current lease at its address. -/
def entered (st : LeaseState) : Bool :=
  st.current.any fun v => st.leaseMap.lookup v.address = st.leaseValue

/-- The pointers are to values, and those of the map to values of their addresses. -/
structure Sound (st : LeaseState) : Prop where
  current : st.leaseValue.isSome → st.current.isSome
  map : ∀ address i, st.leaseMap.lookup address = some i →
    ∃ v, st.values[i]? = some v ∧ v.address = address

/-- The state after the address of a lease. -/
def start (st : LeaseState) (address : String) : LeaseState :=
  { st with
    values := st.values ++ [{ address }]
    leaseValue := some st.values.length
    leaseKeyword := false }

/-- The state after a statement. -/
def command (st : LeaseState) (i : Nat) : LeaseState :=
  { st with values := st.values.modify i (LeaseValue.update st.cmds), cmds := [] }

/-- The state after a `}`. -/
def close (st : LeaseState) (i : Nat) (v : LeaseValue) : LeaseState :=
  { st with leaseMap := st.leaseMap.insert v.address i }

variable {st : LeaseState} {i : Nat} {v : LeaseValue}

theorem current_eq (hi : st.leaseValue = some i) : st.current = st.values[i]? := by
  rw [current, hi, Option.bind_some]

theorem entered_iff (hi : st.leaseValue = some i) (hv : st.values[i]? = some v) :
    st.entered = true ↔ st.leaseMap.lookup v.address = some i := by
  rw [entered, current_eq hi, hv, hi]
  simp

theorem Sound.start (hs : st.Sound) (address : String) : (st.start address).Sound := by
  refine ⟨fun _ => ?_, fun a i hl => ?_⟩
  · simp [LeaseState.start, LeaseState.current]
  · obtain ⟨v, hv, ha⟩ := hs.map a i hl
    exact ⟨v, by rw [LeaseState.start, List.getElem?_append_left (List.getElem?_eq_some_iff.mp hv).1, hv], ha⟩

/-- The new lease is current, and not in the map. -/
theorem start_spec (hs : st.Sound) (address : String) :
    (st.start address).current = some { address } ∧ (st.start address).entered = false ∧
      (st.start address).lease = st.lease := by
  have hcur : (st.start address).values[st.values.length]? = some { address } := by
    simp [start]
  refine ⟨(current_eq rfl).trans hcur, ?_, ?_⟩
  · rw [← Bool.not_eq_true, entered_iff rfl hcur]
    intro hl
    obtain ⟨v, hv, -⟩ := hs.map _ _ hl
    exact Nat.lt_irrefl _ (List.getElem?_eq_some_iff.mp hv).1
  · funext a
    show (st.leaseMap.lookup a).bind _ = (st.leaseMap.lookup a).bind _
    cases hl : st.leaseMap.lookup a with
    | none => rfl
    | some j =>
      obtain ⟨v, hv, -⟩ := hs.map _ _ hl
      exact List.getElem?_append_left (List.getElem?_eq_some_iff.mp hv).1

theorem command_get (st : LeaseState) (i j : Nat) : (st.command i).values[j]? =
    if i = j then st.values[j]?.map (LeaseValue.update st.cmds) else st.values[j]? := by
  rw [command, List.getElem?_modify]
  split <;> simp [*]

theorem Sound.command (hs : st.Sound) (i : Nat) : (st.command i).Sound := by
  have hget {j : Nat} {v : LeaseValue} (hv : st.values[j]? = some v) :
      ∃ w, (st.command i).values[j]? = some w ∧ w.address = v.address := by
    rw [command_get, hv]
    split
    · exact ⟨_, rfl, LeaseValue.update_address _ _⟩
    · exact ⟨v, rfl, rfl⟩
  refine ⟨fun h => ?_, fun a j hl => ?_⟩
  · obtain ⟨k, hk⟩ := Option.isSome_iff_exists.mp h
    obtain ⟨v, hv⟩ := Option.isSome_iff_exists.mp (hs.current h)
    have hk' : st.leaseValue = some k := hk
    obtain ⟨w, hw, -⟩ := hget ((current_eq hk').symm.trans hv)
    rw [current_eq hk, hw]
    rfl
  · obtain ⟨v, hv, ha⟩ := hs.map a j hl
    obtain ⟨w, hw, hw'⟩ := hget hv
    exact ⟨w, hw, hw'.trans ha⟩

/-- A statement changes the current lease, in the map too if it is there. -/
theorem command_spec (hs : st.Sound) (hi : st.leaseValue = some i) (hv : st.values[i]? = some v) :
    (st.command i).current = some (v.update st.cmds) ∧ (st.command i).entered = st.entered ∧
      ∀ a, (st.command i).lease a =
        if v.address = a ∧ st.entered then some (v.update st.cmds) else st.lease a := by
  have hcur : (st.command i).values[i]? = some (v.update st.cmds) := by
    rw [command_get, if_pos rfl, hv, Option.map_some]
  have hi' : (st.command i).leaseValue = some i := hi
  refine ⟨(current_eq hi').trans hcur, ?_, fun a => ?_⟩
  · rw [Bool.eq_iff_iff, entered_iff hi' hcur, entered_iff hi hv, LeaseValue.update_address]
    exact Iff.rfl
  · show (st.leaseMap.lookup a).bind _ = _
    split
    · next h =>
      obtain ⟨rfl, he⟩ := h
      rw [(entered_iff hi hv).mp he]
      exact hcur
    · next h =>
      rw [lease]
      cases hl : st.leaseMap.lookup a with
      | none => rfl
      | some j =>
        obtain ⟨w, hw, ha⟩ := hs.map a j hl
        -- Another value than the current one, or the current one would be in the map.
        have hne : i ≠ j := by
          rintro rfl
          obtain rfl : w = v := Option.some.inj (hw.symm.trans hv)
          subst ha
          exact h ⟨rfl, (entered_iff hi hv).mpr hl⟩
        exact (command_get st i j).trans (if_neg hne)

theorem Sound.close (hs : st.Sound) (hv : st.values[i]? = some v) : (st.close i v).Sound := by
  refine ⟨hs.current, fun a j hl => ?_⟩
  by_cases ha : a = v.address
  · subst ha
    rw [LeaseState.close, AList.lookup_insert, Option.some_inj] at hl
    subst hl
    exact ⟨v, hv, rfl⟩
  · rw [LeaseState.close, AList.lookup_insert_ne ha] at hl
    exact hs.map a j hl

/-- A `}` enters the current lease. -/
theorem close_spec (hi : st.leaseValue = some i) (hv : st.values[i]? = some v) :
    (st.close i v).current = some v ∧ (st.close i v).entered = true ∧
      ∀ a, (st.close i v).lease a = if v.address = a then some v else st.lease a := by
  have hi' : (st.close i v).leaseValue = some i := hi
  have hcur : (st.close i v).values[i]? = some v := hv
  refine ⟨(current_eq hi').trans hcur, ?_, fun a => ?_⟩
  · rw [entered_iff hi' hcur]
    exact AList.lookup_insert _
  · rw [lease, LeaseState.close]
    split
    · next h =>
      rw [h, ← h, AList.lookup_insert]
      exact hv
    · next h =>
      rw [AList.lookup_insert_ne (Ne.symm h)]
      rfl

/-- What the map gets at an address from the current lease, when the stretch follows. -/
def finish (st : LeaseState) (p : Stretch) (address : String) : Option LeaseValue :=
  match st.current with
  | some v =>
    if v.address = address ∧ (st.entered || p.closed) then some (v.run p.cmds) else st.lease address
  | none => st.lease address

theorem finish_some (hc : st.current = some v) (p : Stretch) (address : String) :
    st.finish p address =
      if v.address = address ∧ (st.entered || p.closed) then some (v.run p.cmds)
      else st.lease address := by
  rw [finish, hc]

/-- With nothing to follow the map stays as it is. -/
theorem finish_nil (st : LeaseState) (address : String) : st.finish {} address = st.lease address := by
  cases hc : st.current with
  | none => rw [finish, hc]
  | some v =>
    rw [finish_some hc]
    split
    · next h =>
      obtain ⟨rfl, he⟩ := h
      obtain ⟨i, hi, hv⟩ := Option.bind_eq_some_iff.mp hc
      rw [Bool.or_false] at he
      rw [lease, (entered_iff hi hv).mp he, Option.bind_some, hv]
      rfl
    · rfl

theorem finish_start (hs : st.Sound) (p : Stretch) (address a : String) :
    (st.start address).finish p a =
      if address = a ∧ p.closed then some (LeaseCommands.value ⟨address, p.cmds⟩) else st.lease a := by
  obtain ⟨hcur, hent, hlease⟩ := start_spec hs address
  rw [finish_some hcur, hent, hlease, LeaseValue.run_new, Bool.false_or]

theorem finish_close (hi : st.leaseValue = some i) (hv : st.values[i]? = some v) (p : Stretch)
    (a : String) : (st.close i v).finish p a = st.finish { p with closed := true } a := by
  obtain ⟨hcur, hent, hlease⟩ := close_spec hi hv
  rw [finish_some hcur, finish_some ((current_eq hi).trans hv), hent, hlease, Bool.true_or, Bool.or_true]
  simp only [and_true]
  split
  · rfl
  · rfl

theorem finish_command (hs : st.Sound) (hi : st.leaseValue = some i) (hv : st.values[i]? = some v)
    (p : Stretch) (a : String) :
    (st.command i).finish p a = st.finish { p with cmds := st.cmds :: p.cmds } a := by
  obtain ⟨hcur, hent, hlease⟩ := command_spec hs hi hv
  rw [finish_some hcur, finish_some ((current_eq hi).trans hv), hent, hlease,
    LeaseValue.update_address]
  split
  · rfl
  · next h => exact if_neg fun he => h ⟨he.1, by rw [he.2, Bool.true_or]⟩

end LeaseState

/-- The map that the reader leaves. -/
theorem loadLeaseItems_lease (items : List Item) {st st' : LeaseState} (hs : st.Sound)
    (h : loadLeaseItems items st = some (some st')) (a : String) :
    st'.lease a = (leasesOf (cut st.leaseKeyword st.cmds items).2 a).or
      (st.finish (cut st.leaseKeyword st.cmds items).1 a) := by
  induction items generalizing st with
  | nil => cases h
  | cons item items ih =>
    cases item with
    | itemError => cases h
    | itemEOF =>
      cases h
      exact (LeaseState.finish_nil _ a).symm
    | itemWhiteSpace => exact ih hs h
    | itemLeftBrace => exact ih hs h
    | itemString val => exact @ih { st with cmds := st.cmds ++ [String.ofList val] } ⟨hs.current, hs.map⟩ h
    | itemIdentifier val =>
      rw [loadLeaseItems] at h
      rw [cut]
      split at h
      · next hk =>
        rw [if_pos hk]
        exact @ih { st with leaseKeyword := true } ⟨hs.current, hs.map⟩ h
      · next hk =>
        rw [if_neg hk]
        cases hkey : st.leaseKeyword with
        | true =>
          -- A lease starts, and the one before it gets nothing more.
          rw [if_pos hkey] at h
          have ih := ih (hs.start (String.ofList val)) h
          rw [show (st.start (String.ofList val)).leaseKeyword = false from rfl,
            show (st.start (String.ofList val)).cmds = st.cmds from rfl, LeaseState.finish_start hs] at ih
          rw [if_pos rfl, ih, LeaseState.finish_nil]
          simp only
          generalize cut false st.cmds items = r
          obtain ⟨⟨cmds, closed⟩, ls⟩ := r
          cases closed with
          | false => simp only [Bool.false_eq_true, and_false, if_false]
          | true =>
            simp only [and_true, if_true, leasesOf_cons, Option.or_assoc]
            congr 1
            split
            · rfl
            · rfl
        | false =>
          rw [if_neg (by rw [hkey]; exact Bool.false_ne_true)] at h
          rw [if_neg Bool.false_ne_true, ← hkey]
          exact @ih { st with cmds := st.cmds ++ [String.ofList val] } ⟨hs.current, hs.map⟩ h
    | itemRightBrace =>
      rw [loadLeaseItems] at h
      rw [cut]
      cases hi : st.leaseValue with
      | none =>
        rw [hi] at h
        have hcur : st.current = none := by rw [LeaseState.current, hi, Option.bind_none]
        simpa only [LeaseState.finish, hcur] using ih hs h
      | some i =>
        obtain ⟨v, hv⟩ := Option.isSome_iff_exists.mp (hs.current (hi ▸ rfl))
        rw [LeaseState.current_eq hi] at hv
        simp only [hi, hv, Option.map_some, Option.getD_some] at h
        rw [← LeaseState.finish_close hi hv]
        exact @ih (st.close i v) (hs.close hv) (by rw [LeaseState.close, hi]; exact h)
    | itemSemiColon =>
      rw [loadLeaseItems] at h
      rw [cut]
      cases hi : st.leaseValue with
      | none =>
        simp only [hi] at h
        have hcur : st.current = none := by rw [LeaseState.current, hi, Option.bind_none]
        have hcur' : LeaseState.current { st with cmds := [] } = none := hcur
        have ih := @ih { st with cmds := [] } ⟨hs.current, hs.map⟩ (by rw [hi]; exact h)
        simp only [LeaseState.finish, hcur'] at ih
        simp only [LeaseState.finish, hcur]
        exact ih
      | some i =>
        obtain ⟨v, hv⟩ := Option.isSome_iff_exists.mp (hs.current (hi ▸ rfl))
        rw [LeaseState.current_eq hi] at hv
        rw [← LeaseState.finish_command hs hi hv]
        refine @ih (st.command i) (hs.command i) ?_
        rw [LeaseState.command]
        cases hc : st.cmds with
        | nil => simp [hi, hc] at h
        | cons c cs => simpa only [hi, hc] using h

/-! ## Files read -/

/-- `LoadLease` returns the map, and no error. -/
def LoadLeaseReturns (env : Env) (input : List UInt8) (m : String → Option LeaseValue) : Prop :=
  ∃ n, (Lexer.run env n { input := runes input }).2.state = none ∧
    ∃ st, loadLeaseItems (Lexer.run env n { input := runes input }).1 {} = some (some st) ∧ st.lease = m

/-- What the reader makes of a file makes no difference: after the first cut every `;` has
a word since the last one; the stretches with a `}` start with the addresses of the
lease blocks; and in the last such stretch of each address the last `hardware` and the
last `client-hostname` end in the word that they end in in the last block of the address. -/
structure Harmless (file : List LeaseElement) : Prop where
  worded : leaseWorded (leaseFileItems file) false false 0 = true
  addresses : ∀ a, (∃ r ∈ readings (leaseFileItems file), r.address = a) ↔
    ∃ l ∈ leaseBlocks file, l.address = a
  values : ∀ a r l, Latest.last LeaseCommands.address a (readings (leaseFileItems file)) = some r →
    Latest.last LeaseCommands.address a (leaseBlocks file) = some l →
    ∀ keyword ∈ ["hardware", "client-hostname"], lastValue keyword r.cmds = lastValue keyword l.cmds

theorem loadLeaseItems_solid (items : List Item) (st : LeaseState) :
    loadLeaseItems (solidItems items) st = loadLeaseItems items st := by
  induction items generalizing st with
  | nil => rfl
  | cons item items ih =>
    rw [solidItems, List.filter_cons]
    cases item with
    | itemWhiteSpace => exact ih st
    | itemEOF => rfl
    | itemError => rfl
    | itemLeftBrace => exact ih st
    | itemRightBrace =>
      show loadLeaseItems (.itemRightBrace :: solidItems items) st = _
      rw [loadLeaseItems, loadLeaseItems]
      split <;> exact ih _
    | itemSemiColon =>
      show loadLeaseItems (.itemSemiColon :: solidItems items) st = _
      rw [loadLeaseItems, loadLeaseItems]
      split <;> first | exact ih _ | rfl
    | itemString val => exact ih _
    | itemIdentifier val =>
      show loadLeaseItems (.itemIdentifier val :: solidItems items) st = _
      rw [loadLeaseItems, loadLeaseItems, ih, ih, ih]

theorem loadLeaseItems_ne_error {items : List Item} (h : .itemError ∉ items) (st : LeaseState) :
    loadLeaseItems items st ≠ some none := by
  induction items generalizing st with
  | nil => exact fun h => by cases h
  | cons item items ih =>
    have ih := ih fun hm => h (List.mem_cons_of_mem _ hm)
    cases item with
    | itemError => exact absurd List.mem_cons_self h
    | itemEOF => exact fun h => by cases h
    | itemWhiteSpace => exact ih st
    | itemLeftBrace => exact ih st
    | itemString val => exact ih _
    | itemRightBrace =>
      rw [loadLeaseItems]
      split <;> exact ih _
    | itemSemiColon =>
      rw [loadLeaseItems]
      split <;> first | exact ih _ | exact fun h => by cases h
    | itemIdentifier val =>
      rw [loadLeaseItems]
      split
      · exact ih _
      · split <;> exact ih _

/-- The reader's last state on a file. -/
theorem loadLeaseItems_file (file : List LeaseElement) (m : String → Option LeaseValue) :
    (∃ st, loadLeaseItems (leaseFileItems file) {} = some (some st) ∧ st.lease = m) ↔
      leaseWorded (leaseFileItems file) false false 0 = true ∧
        leasesOf (readings (leaseFileItems file)) = m := by
  have hlease {st : LeaseState} (h : loadLeaseItems (leaseFileItems file) {} = some (some st)) :
      st.lease = leasesOf (readings (leaseFileItems file)) := by
    funext a
    have hsound : LeaseState.Sound {} := ⟨fun h => (nomatch h), fun a i h => (nomatch h)⟩
    rw [loadLeaseItems_lease _ hsound h a]
    exact Option.or_none
  have hends : (leaseFileItems file).any Item.ends = true := by
    rw [leaseFileItems, List.any_append, Bool.or_eq_true]
    exact .inr rfl
  have herror : .itemError ∉ leaseFileItems file := by
    rw [leaseFileItems, List.mem_append]
    rintro (h | h)
    · exact leaseItems_ne_error file h
    · cases List.mem_singleton.mp h
  have hsome := loadLeaseItems_isSome (leaseFileItems file) {}
  constructor
  · rintro ⟨st, h, rfl⟩
    rw [h] at hsome
    exact ⟨(hsome.mp rfl).2, (hlease h).symm⟩
  · rintro ⟨hw, rfl⟩
    obtain ⟨r, hr⟩ := Option.isSome_iff_exists.mp (hsome.mpr ⟨hends, hw⟩)
    cases r with
    | none => exact absurd hr (loadLeaseItems_ne_error herror {})
    | some st => exact ⟨st, hr, hlease hr⟩

theorem loadLeaseReturns_iff {env : Env} {input : List UInt8} {file : List LeaseElement}
    (h : IsLeaseFile env input file) (m : String → Option LeaseValue) :
    LoadLeaseReturns env input m ↔ leaseWorded (leaseFileItems file) false false 0 = true ∧
      leasesOf (readings (leaseFileItems file)) = m := by
  refine (Lexer.run_tokens env input fun items =>
    ∃ st, loadLeaseItems items {} = some (some st) ∧ st.lease = m).trans ?_
  rw [← loadLeaseItems_solid, h.2, loadLeaseItems_file, h.1]
  exact and_iff_right rfl

/-- In a tidy file what the reader makes of it makes no difference. -/
theorem tidy_harmless {file : List LeaseElement} (h : ∀ e ∈ file, Tidy e) : Harmless file := by
  have hmap (ls : List LeaseCommands) (a : String) :
      leasesOf ls a = Latest.last LeaseValue.address a (ls.map LeaseCommands.value) :=
    (@Latest.last_map _ _ _ LeaseValue.address a _ LeaseCommands.value LeaseCommands.address
      (fun _ => rfl) ls).symm
  have heq : leasesOf (readings (leaseFileItems file)) = leasesOf (leaseBlocks file) := by
    funext a
    rw [hmap, hmap, readings, (tidy_cut h).1]
  obtain ⟨haddr, hval⟩ := (leasesOf_eq_iff _ _).mp heq
  exact ⟨tidy_worded h false 0, haddr, hval⟩

/-- `LoadLease` gives each address the last lease block for it just when what the reader
makes of the file makes no difference. -/
theorem loadLease_iff {env : Env} {input : List UInt8} {file : List LeaseElement}
    (h : IsLeaseFile env input file) :
    LoadLeaseReturns env input (leasesOf (leaseBlocks file)) ↔ Harmless file := by
  rw [loadLeaseReturns_iff h, leasesOf_eq_iff]
  exact ⟨fun ⟨hw, ha, hv⟩ => ⟨hw, ha, hv⟩, fun hf => ⟨hf.worded, hf.addresses, hf.values⟩⟩

/-- The words of a text without strings. -/
def identifiers (words : List String) : List LeaseWord := words.map fun w => .identifier w.toList

/-- A statement of two words. -/
def pair (word value : String) : LeaseElement := .statement (.identifier word.toList) (identifiers [value])

/-- A block for an address, and a later one for it. -/
def renewedFile : List LeaseElement :=
  [pair "version" "4", .block (identifiers ["lease", "10.0.0.1"]) [pair "hardware" "a:b"],
    .block (identifiers ["lease", "10.0.0.1"]) [pair "hardware" "c:d"]]

theorem loadLease_renewed : LoadLeaseReturns .ascii
    (asciiBytes "version 4;lease 10.0.0.1\x7bhardware a:b;\x7d#\nlease 10.0.0.1\x7bhardware c:d;\x7d")
    (leasesOf (leaseBlocks renewedFile)) := by
  refine (loadLease_iff ⟨by decide +kernel, by decide +kernel⟩).mpr (tidy_harmless fun e he => ?_)
  have hlease {body : List LeaseElement} (hs : ∀ e ∈ body, ∃ word words, e = .statement word words)
      (hp : PlainItems (leaseItems body)) : Tidy (.block (identifiers ["lease", "10.0.0.1"]) body) :=
    .lease (by decide) (by decide) hs hp
  rcases List.mem_cons.mp he with rfl | he
  · exact .other (by unfold PlainItems; decide) (by decide) (by unfold Unread; decide) rfl
  rcases List.mem_cons.mp he with rfl | he
  · refine hlease (fun e he => ?_) (by unfold PlainItems; decide)
    obtain rfl := List.mem_singleton.mp he
    exact ⟨_, _, rfl⟩
  · obtain rfl := List.mem_singleton.mp he
    refine hlease (fun e he => ?_) (by unfold PlainItems; decide)
    obtain rfl := List.mem_singleton.mp he
    exact ⟨_, _, rfl⟩

/-- A lease block, and a statement after it. -/
def strayFile : List LeaseElement :=
  [.block (identifiers ["lease", "10.0.0.1"]) [pair "hardware" "a:b"], pair "hardware" "c:d"]

/-- A statement after the block changes the entry. -/
theorem loadLease_stray : ∃ input file, IsLeaseFile .ascii input file ∧
    ¬ LoadLeaseReturns .ascii input (leasesOf (leaseBlocks file)) := by
  have hfile : IsLeaseFile .ascii
      (asciiBytes "lease 10.0.0.1 \x7b hardware a:b; \x7d hardware c:d;") strayFile :=
    ⟨by decide +kernel, by decide +kernel⟩
  refine ⟨_, _, hfile, fun h => ?_⟩
  have hlease := congrFun ((loadLeaseReturns_iff hfile _).mp h).2 "10.0.0.1"
  have hne : leasesOf (readings (leaseFileItems strayFile)) "10.0.0.1" ≠
      leasesOf (leaseBlocks strayFile) "10.0.0.1" := by
    decide +kernel
  exact hne hlease

end OpenConfigd
