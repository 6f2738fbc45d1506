import OpenConfigd.Quagga.Sync

/-!
# What has changed between two configurations

`QuaggaBgpConfigDiff` on whole instances, whose routing protocols it does not look at. Its
three results are exact (`configDiff_exact`): they part the interfaces that have come, gone
and changed, and with them the old configuration becomes the new one. On the texts alone it
is `quaggaBgpConfigDiff` (`texts_configDiff`).
-/

namespace OpenConfigd.Quagga

/-- `QuaggaInstanceConfig`. -/
structure InstanceConfig where
  quaggaInstanceConfig : String
  routingProtocol : String
  deriving DecidableEq

/-- `QuaggaInterfaceConfigs`. -/
abbrev Configs := GoMap String (List InstanceConfig)

namespace Configs

/-- The texts of instances. -/
def texts (config : List InstanceConfig) : List String := config.map (·.quaggaInstanceConfig)

/-- The comparison of two lists of instances in `QuaggaBgpConfigDiff`. -/
def differ (old new : List InstanceConfig) : Bool :=
  old.length ≠ new.length ||
    (old.zip new).any fun x => x.1.quaggaInstanceConfig ≠ x.2.quaggaInstanceConfig

/-- The three results of `QuaggaBgpConfigDiff`. -/
structure Diff where
  added : Configs
  removed : Configs
  modified : Configs

/-- `QuaggaBgpConfigDiff`. -/
def configDiff (old new : Configs) : Diff where
  added := new.filter fun interface _ => (old.lookup interface).isNone
  removed := old.filter fun interface _ => (new.lookup interface).isNone
  modified := old.filter fun interface config => (new.lookup interface).any (differ config)

/-- The old configuration without the interfaces that are removed or modified, and with the
new instances of those that are modified or added. -/
def Diff.replaced (d : Diff) (old new : Configs) : Configs :=
  (old.filter fun interface _ => interface ∉ d.removed ∧ interface ∉ d.modified) ∪
    new.filter fun interface _ => interface ∈ d.added ∨ interface ∈ d.modified

/-- Two lists of instances have other texts, in length or at some position. -/
def OtherTexts (old new : List InstanceConfig) : Prop :=
  old.length ≠ new.length ∨ ∃ (k : Nat) (x y : InstanceConfig), old[k]? = some x ∧ new[k]? = some y ∧
    x.quaggaInstanceConfig ≠ y.quaggaInstanceConfig

theorem differ_texts (old new : List InstanceConfig) : differ old new = differs (texts old) (texts new) := by
  rw [differ, differs, texts, texts, List.length_map, List.length_map, List.zip_map, List.any_map]
  rfl

theorem differ_eq_false {old new : List InstanceConfig} : differ old new = false ↔ texts old = texts new := by
  rw [differ_texts, differs_eq_false]

theorem otherTexts_iff {old new : List InstanceConfig} : OtherTexts old new ↔ texts old ≠ texts new := by
  have hget (l : List InstanceConfig) (k : Nat) : (texts l)[k]? = l[k]?.map (·.quaggaInstanceConfig) :=
    List.getElem?_map
  constructor
  · rintro (hlen | ⟨k, x, y, hx, hy, hne⟩) heq
    · exact hlen (by simpa only [texts, List.length_map] using congrArg List.length heq)
    · have hk := congrArg (·[k]?) heq
      simp only [hget, hx, hy, Option.map_some, Option.some.injEq] at hk
      exact hne hk
  · intro hne
    by_contra h
    simp only [OtherTexts, not_or, not_exists, not_and, not_not] at h
    refine hne (List.ext_getElem? fun k => ?_)
    rw [hget, hget]
    by_cases hk : k < old.length
    · have hk' : k < new.length := h.1 ▸ hk
      rw [List.getElem?_eq_getElem hk, List.getElem?_eq_getElem hk', Option.map_some, Option.map_some,
        h.2 k _ _ (List.getElem?_eq_getElem hk) (List.getElem?_eq_getElem hk')]
    · rw [List.getElem?_eq_none (by omega), List.getElem?_eq_none (by omega)]

theorem differ_iff {old new : List InstanceConfig} : differ old new = true ↔ OtherTexts old new := by
  rw [otherTexts_iff, ← not_iff_not, Bool.not_eq_true, differ_eq_false, not_not]

variable {old new : Configs} {i : String}

theorem mem_filter {p : String → List InstanceConfig → Bool} {m : Configs} :
    i ∈ m.filter p ↔ ∃ a ∈ m.lookup i, p i a = true := by
  rw [← AList.lookup_isSome, GoMap.lookup_filter]
  cases m.lookup i with
  | none => simp
  | some a => cases h : p i a <;> simp [Option.filter, h]

theorem isNone_lookup {m : Configs} : (m.lookup i).isNone = true ↔ i ∉ m := by
  rw [Option.isNone_iff_eq_none, AList.lookup_eq_none]

theorem mem_iff_lookup {m : Configs} : i ∈ m ↔ ∃ a, a ∈ m.lookup i := by
  rw [← AList.lookup_isSome, Option.isSome_iff_exists]
  rfl

theorem mem_added : i ∈ (configDiff old new).added ↔ i ∈ new ∧ i ∉ old := by
  rw [configDiff, mem_filter, isNone_lookup, exists_and_right, ← mem_iff_lookup]

theorem mem_removed : i ∈ (configDiff old new).removed ↔ i ∈ old ∧ i ∉ new := by
  rw [configDiff, mem_filter, isNone_lookup, exists_and_right, ← mem_iff_lookup]

theorem mem_modified : i ∈ (configDiff old new).modified ↔
    ∃ a ∈ old.lookup i, ∃ b ∈ new.lookup i, OtherTexts a b := by
  rw [configDiff, mem_filter]
  refine exists_congr fun a => and_congr_right fun _ => ?_
  rw [Option.any_eq_true]
  exact exists_congr fun b => and_congr_right fun _ => differ_iff

theorem filter_pos {α : Type} {p : α → Bool} {o : Option α} (h : ∀ a ∈ o, p a = true) : o.filter p = o := by
  cases o with
  | none => rfl
  | some a => rw [Option.filter, if_pos (h a rfl)]

theorem filter_neg {α : Type} {p : α → Bool} {o : Option α} (h : ∀ a ∈ o, p a = false) :
    o.filter p = none := by
  cases o with
  | none => rfl
  | some a => rw [Option.filter, if_neg (by rw [h a rfl]; decide)]

/-- An interface that is kept has its old instances. -/
theorem lookup_replaced_kept {d : Diff} (h : i ∈ old) (hr : i ∉ d.removed) (hm : i ∉ d.modified) :
    (d.replaced old new).lookup i = old.lookup i := by
  have hp : ∀ a ∈ old.lookup i, decide (i ∉ d.removed ∧ i ∉ d.modified) = true :=
    fun _ _ => decide_eq_true ⟨hr, hm⟩
  have hmem : i ∈ old.filter fun interface _ => interface ∉ d.removed ∧ interface ∉ d.modified := by
    obtain ⟨a, ha⟩ := Option.isSome_iff_exists.mp (AList.lookup_isSome.mpr h)
    exact mem_filter.mpr ⟨a, ha, decide_eq_true ⟨hr, hm⟩⟩
  rw [Diff.replaced, AList.lookup_union_left hmem, GoMap.lookup_filter, filter_pos hp]

/-- Another one has its new instances, if it is added or modified. -/
theorem lookup_replaced_other {d : Diff} (h : ¬ (i ∈ old ∧ i ∉ d.removed ∧ i ∉ d.modified)) :
    (d.replaced old new).lookup i = if i ∈ d.added ∨ i ∈ d.modified then new.lookup i else none := by
  have hmem : i ∉ old.filter fun interface _ => interface ∉ d.removed ∧ interface ∉ d.modified := by
    rw [mem_filter]
    rintro ⟨a, ha, hp⟩
    exact h ⟨AList.lookup_isSome.mp (Option.isSome_iff_exists.mpr ⟨a, ha⟩), of_decide_eq_true hp⟩
  rw [Diff.replaced, AList.lookup_union_right hmem, GoMap.lookup_filter]
  split
  · exact filter_pos fun _ _ => decide_eq_true ‹_›
  · exact filter_neg fun _ _ => decide_eq_false ‹_›

/-- The three results are exact. -/
theorem configDiff_exact (old new : Configs) :
    (∀ i, i ∈ (configDiff old new).added ↔ i ∈ new ∧ i ∉ old) ∧
    (∀ i, i ∈ (configDiff old new).removed ↔ i ∈ old ∧ i ∉ new) ∧
    (∀ i, i ∈ (configDiff old new).modified ↔
      ∃ a ∈ old.lookup i, ∃ b ∈ new.lookup i, OtherTexts a b) ∧
    (∀ i, ¬ (i ∈ (configDiff old new).added ∧ i ∈ (configDiff old new).removed) ∧
      ¬ (i ∈ (configDiff old new).added ∧ i ∈ (configDiff old new).modified) ∧
      ¬ (i ∈ (configDiff old new).removed ∧ i ∈ (configDiff old new).modified)) ∧
    ∀ i, (((configDiff old new).replaced old new).lookup i).map texts = (new.lookup i).map texts := by
  have hmodified {i : String} (h : i ∈ (configDiff old new).modified) : i ∈ old ∧ i ∈ new := by
    obtain ⟨a, ha, b, hb, -⟩ := mem_modified.mp h
    exact ⟨AList.lookup_isSome.mp (Option.isSome_iff_exists.mpr ⟨a, ha⟩),
      AList.lookup_isSome.mp (Option.isSome_iff_exists.mpr ⟨b, hb⟩)⟩
  refine ⟨fun i => mem_added, fun i => mem_removed, fun i => mem_modified, fun i => ⟨?_, ?_, ?_⟩, fun i => ?_⟩
  · rintro ⟨ha, hr⟩
    exact (mem_added.mp ha).2 (mem_removed.mp hr).1
  · rintro ⟨ha, hm⟩
    exact (mem_added.mp ha).2 (hmodified hm).1
  · rintro ⟨hr, hm⟩
    exact (mem_removed.mp hr).2 (hmodified hm).2
  · by_cases hkept : i ∈ old ∧ i ∉ (configDiff old new).removed ∧ i ∉ (configDiff old new).modified
    · obtain ⟨ho, hr, hm⟩ := hkept
      rw [lookup_replaced_kept ho hr hm]
      have hn : i ∈ new := by
        by_contra hn
        exact hr (mem_removed.mpr ⟨ho, hn⟩)
      obtain ⟨a, ha⟩ := Option.isSome_iff_exists.mp (AList.lookup_isSome.mpr ho)
      obtain ⟨b, hb⟩ := Option.isSome_iff_exists.mp (AList.lookup_isSome.mpr hn)
      have hsame : texts a = texts b := by
        by_contra hne
        exact hm (mem_modified.mpr ⟨a, ha, b, hb, otherTexts_iff.mpr hne⟩)
      rw [ha, hb, Option.map_some, Option.map_some, hsame]
    · rw [lookup_replaced_other hkept]
      by_cases hn : i ∈ new
      · have hnew : i ∈ (configDiff old new).added ∨ i ∈ (configDiff old new).modified := by
          by_cases ho : i ∈ old
          · by_contra h
            rw [not_or] at h
            exact hkept ⟨ho, fun hr => (mem_removed.mp hr).2 hn, h.2⟩
          · exact .inl (mem_added.mpr ⟨hn, ho⟩)
        rw [if_pos hnew]
      · have hnot : ¬ (i ∈ (configDiff old new).added ∨ i ∈ (configDiff old new).modified) := by
          rintro (ha | hm)
          · exact hn (mem_added.mp ha).1
          · exact hn (hmodified hm).2
        rw [if_neg hnot, AList.lookup_eq_none.mpr hn]

/-- The texts of a configuration. -/
def textsOf (configs : Configs) : InterfaceConfigs :=
  ⟨configs.entries.map fun x => ⟨x.1, texts x.2⟩, by
    have h := configs.nodupKeys
    rw [List.NodupKeys, List.keys] at h ⊢
    rw [List.map_map]
    exact h⟩

theorem lookup_textsOf (configs : Configs) (i : String) :
    configs.textsOf.lookup i = (configs.lookup i).map texts := by
  ext b
  rw [← Option.mem_def, AList.mem_lookup_iff, Option.map_eq_some_iff]
  simp only [textsOf, List.mem_map, Sigma.mk.injEq, heq_eq_eq]
  constructor
  · rintro ⟨x, hx, rfl, rfl⟩
    exact ⟨x.2, AList.mem_lookup_iff.mpr hx, rfl⟩
  · rintro ⟨a, ha, rfl⟩
    exact ⟨⟨i, a⟩, AList.mem_lookup_iff.mp ha, rfl, rfl⟩

/-- On the texts the comparison is `quaggaBgpConfigDiff`. -/
theorem texts_configDiff (old new : Configs) (i : String) :
    ((configDiff old new).added.lookup i).map texts = (quaggaBgpConfigDiff old.textsOf new.textsOf).added.lookup i ∧
      ((configDiff old new).removed.lookup i).map texts =
        (quaggaBgpConfigDiff old.textsOf new.textsOf).removed.lookup i ∧
      ((configDiff old new).modified.lookup i).map texts =
        (quaggaBgpConfigDiff old.textsOf new.textsOf).modified.lookup i := by
  simp only [configDiff, quaggaBgpConfigDiff, GoMap.lookup_filter, lookup_textsOf]
  refine ⟨?_, ?_, ?_⟩
  · cases old.lookup i <;> cases new.lookup i <;> rfl
  · cases old.lookup i <;> cases new.lookup i <;> rfl
  · cases old.lookup i with
    | none => rfl
    | some a =>
      cases new.lookup i with
      | none => rfl
      | some b =>
        simp only [Option.map_some, Option.any_some, Option.filter, differ_texts]
        split <;> rfl

end Configs

end OpenConfigd.Quagga
