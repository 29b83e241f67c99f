import Akar.CatalogConsistency

namespace Akar

open List Function

/-- A small LRU cache: the values by key, and the keys with the least recently used one first. -/
structure PlanCache (T : Type) where
  map : List (String × T)
  order : List String
  capacity : Nat

namespace PlanCache

variable {T : Type}

def new (capacity : Nat) : PlanCache T := ⟨[], [], max capacity 1⟩

def lookup (cache : PlanCache T) (key : String) : Option T := cache.map.lookup key

def get (cache : PlanCache T) (key : String) : PlanCache T × Option T :=
  match cache.lookup key, cache.order.findIdx? (· = key) with
  | some value, some pos =>
    if pos + 1 ≠
      cache.order.length then ({ cache with order := cache.order.eraseIdx pos ++ [key] },
      some value)
    else (cache, some value)
  | found, _ => (cache, found)

def insert (cache : PlanCache T) (key : String) (value : T) : PlanCache T :=
  let cleared : PlanCache T :=
    match cache.order.findIdx? (· = key) with
    | some pos => { cache with order := cache.order.eraseIdx pos }
    | none =>
      if cache.capacity ≤ cache.map.length then
        match cache.order with
        | oldest :: order => { cache with map := cache.map.filter (·.1 ≠ oldest), order := order }
        | [] => cache
      else cache
  { cleared with map := (key, value) :: cleared.map.filter (·.1 ≠ key), order := cleared.order ++ [key] }

def clear (cache : PlanCache T) : PlanCache T := { cache with map := [], order := [] }

variable {cache : PlanCache T} {key : String} {value : T}

theorem get_map : (cache.get key).1.map = cache.map := by
  unfold get
  split
  next => split <;> rfl
  next => rfl

theorem get_snd : (cache.get key).2 = cache.lookup key := by
  unfold get
  split
  next value _ hfound _ =>
    split
    next => exact hfound.symm
    next => exact hfound.symm
  next => rfl

theorem mem_of_lookup (h : cache.lookup key = some value) : (key, value) ∈ cache.map := by
  obtain ⟨l₁, l₂, hmap, -⟩ := lookup_eq_some_iff.mp h
  rw [hmap]
  exact mem_append_right _ mem_cons_self

theorem mem_insert {entry : String × T} (h : entry ∈ (cache.insert key value).map) : entry =
    (key, value) ∨ entry ∈ cache.map := by
  rcases mem_cons.mp h with rfl | h
  · exact .inl rfl
  · have hmem := (mem_filter.mp h).1
    split at hmem
    next => exact .inr hmem
    next =>
      split at hmem
      next =>
        split at hmem
        next => exact .inr (mem_filter.mp hmem).1
        next => exact .inr hmem
      next => exact .inr hmem

end PlanCache

def CatalogEntry.isSchema : CatalogEntry → Bool
  | .nodeTable _ | .relTable _ | .vectorIndex _ | .foreign _ => true
  | .sequence _ | .scalarMacro _ => false

namespace Catalog

def schemaAt (cat : Catalog) (id : Nat) : Option CatalogEntry := (cat.entries id).filter (·.isSchema)

def schemaByName (cat : Catalog) (name : String) : Option CatalogEntry :=
  (cat.getEntryByName name).filter (·.isSchema)

/-- The same tables, with their columns and indexes, under the same ids and names, and the same
full-text indexes. -/
structure SameSchema (cat cat' : Catalog) : Prop where
  filed : ∀ id, cat.schemaAt id = cat'.schemaAt id
  named : ∀ name, cat.schemaByName name = cat'.schemaByName name
  indexed : cat.ftsIndexes = cat'.ftsIndexes

theorem SameSchema.refl (cat : Catalog) : cat.SameSchema cat := ⟨fun _ => rfl, fun _ => rfl, rfl⟩

theorem SameSchema.trans {a b c : Catalog} (h : a.SameSchema b) (h' : b.SameSchema c) :
    a.SameSchema c :=
  ⟨fun id => (h.filed id).trans (h'.filed id), fun name => (h.named name).trans (h'.named name),
    h.indexed.trans h'.indexed⟩

section Versions

variable {cat : Catalog} {key : String} {r : Catalog × CatalogResult} {e : Except CatalogError Catalog}

variable {entry : Nat → CatalogEntry}

theorem bumped_createEntry :
    (bumped (cat.createEntry key entry)).1 = cat ∨ (bumped (cat.createEntry key entry)).1.version =
      cat.version + 1 := by
  unfold createEntry
  split
  next => exact .inl rfl
  next => exact .inr rfl

theorem bumped_dropEntry : (bumped (cat.dropEntry key)).1 = cat ∨
    (bumped (cat.dropEntry key)).1.version = cat.version + 1 := by
  unfold dropEntry
  split
  next => exact .inr rfl
  next => exact .inl rfl

theorem dropEntry_sameSchema (h : cat.schemaByName key = none) :
    cat.SameSchema (cat.dropEntry key).1 := by
  unfold dropEntry
  split
  next id hid =>
    have hat : cat.schemaAt id = none := by
      unfold schemaByName getEntryByName at h
      rw [hid] at h
      exact h
    refine ⟨fun k => ?_, fun name => ?_, rfl⟩
    · show _ = (update cat.entries id none k).filter _
      rw [update_apply]
      split
      next hk =>
        subst hk
        exact hat
      · rfl
    · show _ = ((update cat.nameToId key none name).bind
        (update cat.entries id none)).filter _
      rw [update_apply]
      split
      next hn =>
        subst hn
        exact h
      · unfold schemaByName getEntryByName
        cases hname : cat.nameToId name with
        | none => rfl
        | some k =>
          show (cat.entries k).filter _ = (update cat.entries id none k).filter _
          rw [update_apply]
          split
          next hk =>
            subst hk
            exact hat
          · rfl
  next => exact .refl cat

theorem version_editEntry {tableName : String}
    {edit : CatalogEntry → Except CatalogError CatalogEntry} :
    (cat.accepted (cat.editEntry tableName edit)).version = cat.version := by
  unfold editEntry
  split
  next => rfl
  next =>
    split
    next => rfl
    next => split <;> rfl

theorem version_createEntry : (cat.createEntry key entry).1.version = cat.version := by
  unfold createEntry
  split <;> rfl

theorem version_dropEntry : (cat.dropEntry key).1.version = cat.version := by
  unfold dropEntry
  split <;> rfl

variable [CaseMapping]

/-- The calls that bump the version where they have an effect, or have no effect on tables, columns
and indexes. -/
def Announced (cat : Catalog) : CatalogCall → Prop
  | .createNodeTable .. | .createRelTable .. | .createSequence .. | .createMacro ..
  | .createTypeAlias .. | .dropTable _ => True
  | .dropSequence name => cat.schemaByName name = none
  | .dropMacro name => cat.schemaByName (CaseMapping.toUppercase name) = none
  | _ => False

theorem announced_call {c : CatalogCall} (h : cat.Announced c) :
    (cat.call c).version = cat.version ∧ cat.SameSchema (cat.call c) ∨ (cat.call c).version =
      cat.version + 1 := by
  have hsame : ∀ next : Catalog, next = cat ∨ next.version = cat.version + 1 →
      next.version = cat.version ∧ cat.SameSchema next ∨ next.version = cat.version + 1 := by
    rintro next (rfl | hnext)
    · exact .inl ⟨rfl, .refl next⟩
    · exact .inr hnext
  cases c with
  | createNodeTable | createRelTable | createSequence | createMacro => exact hsame _ bumped_createEntry
  | createTypeAlias name typeName =>
    refine hsame _ ?_
    show cat.accepted (cat.createTypeAlias name typeName) = cat ∨ _
    change _ ∨ (cat.accepted (cat.createTypeAlias name typeName)).version = _
    unfold createTypeAlias
    dsimp only
    split
    next => exact .inl rfl
    next => exact .inr rfl
  | dropTable => exact hsame _ bumped_dropEntry
  | dropSequence name | dropMacro name => exact .inl ⟨version_dropEntry, dropEntry_sameSchema h⟩
  | _ => exact h.elim

theorem version_le_call (c : CatalogCall) : cat.version ≤ (cat.call c).version := by
  have hbump : ∀ next : Catalog, next = cat ∨ next.version = cat.version + 1 → cat.version ≤
      next.version := by
    rintro next (rfl | hnext)
    · exact le_rfl
    · omega
  cases c with
  | createNodeTable | createRelTable | createSequence | createMacro => exact hbump _ bumped_createEntry
  | createVectorIndex =>
    show _ ≤ (cat.createVectorIndex ..).1.version
    unfold createVectorIndex
    split
    next => exact le_rfl
    next => exact version_createEntry.symm.le
  | registerFtsIndex =>
    show _ ≤ (cat.accepted (cat.registerFtsIndex ..)).version
    unfold registerFtsIndex
    split <;> exact le_rfl
  | createForeignTable => exact version_createEntry.symm.le
  | createTypeAlias =>
    show _ ≤ (cat.accepted (cat.createTypeAlias ..)).version
    unfold createTypeAlias
    dsimp only
    split
    next => exact le_rfl
    next => exact Nat.le_succ _
  | dropTable => exact hbump _ bumped_dropEntry
  | dropSequence name | dropMacro name | dropForeignTable name => exact version_dropEntry.symm.le
  | addColumn | dropColumn | renameColumn | createIndex | dropIndex => exact version_editEntry.symm.le
  | renameTable =>
    show _ ≤ (cat.accepted (cat.renameTable ..)).version
    unfold renameTable
    split
    next => exact le_rfl
    next =>
      split
      next => exact le_rfl
      next => split <;> exact le_rfl
  | rename =>
    show _ ≤ (Catalog.rename ..).1.version
    unfold Catalog.rename
    split
    next => exact le_rfl
    next =>
      split
      next => exact le_rfl
      next => split <;> exact le_rfl
  | addForeignEntry => exact le_rfl
  | removeForeignEntry =>
    show _ ≤ (cat.accepted (cat.removeForeignEntry ..)).version
    unfold removeForeignEntry
    split
    next => exact le_rfl
    next => split <;> exact le_rfl

end Versions

end Catalog

/-- A plan with the version read when it was built, and the catalog it was built on. -/
structure CachedPlan where
  catalogVersion : Nat
  builtOn : Catalog

structure PlanSession where
  catalog : Catalog
  planCache : PlanCache CachedPlan

/-- A catalog call, a query by its normalised text, or `clear_cache`. A query that fails to bind or
is not cachable is not kept. -/
inductive PlanStep where
  | call (c : CatalogCall)
  | query (normalized : String) (kept : Bool)
  | clearCache

namespace PlanSession

def new (capacity : Nat) : PlanSession := ⟨.new, .new capacity⟩

def cachedPlan (s : PlanSession) (normalized : String) : Option CachedPlan :=
  (s.planCache.get normalized).2.filter (·.catalogVersion = s.catalog.version)

def query (s : PlanSession) (normalized : String) (kept : Bool) : PlanSession :=
  let cache := (s.planCache.get normalized).1
  match s.cachedPlan normalized with
  | some _ => { s with planCache := cache }
  | none =>
    if kept then { s with planCache := cache.insert normalized ⟨s.catalog.version, s.catalog⟩ }
    else { s with planCache := cache }

variable [CaseMapping]

def step (s : PlanSession) : PlanStep → Option PlanSession
  | .call c => some { s with catalog := s.catalog.call c }
  | .query normalized kept => some (s.query normalized kept)
  | .clearCache => some { s with planCache := s.planCache.clear }

/-- A call that changes the schema without a bump is made only while no plan of the current version
is cached. -/
def Careful (s : PlanSession) : PlanStep → Prop
  | .call c => s.catalog.Announced c ∨ ∀ p ∈ s.planCache.map, p.2.catalogVersion ≠ s.catalog.version
  | .query _ _ | .clearCache => True

def Fresh (s : PlanSession) : Prop := ∀ p ∈ s.planCache.map, p.2.catalogVersion ≤ s.catalog.version ∧
    (p.2.catalogVersion = s.catalog.version → p.2.builtOn.SameSchema s.catalog)

variable {s t : PlanSession} {a : PlanStep} {normalized : String}

omit [CaseMapping] in
theorem Fresh.query {kept : Bool} (h : s.Fresh) : (s.query normalized kept).Fresh := by
  have hget : ∀ p ∈ (s.planCache.get normalized).1.map, p ∈ s.planCache.map := by
    rw [PlanCache.get_map]
    exact fun p hp => hp
  unfold PlanSession.query
  dsimp only
  split
  next => exact fun p hp => h p (hget p hp)
  next =>
    split
    next =>
      intro p hp
      rcases PlanCache.mem_insert hp with rfl | hp
      · exact ⟨le_rfl, fun _ => .refl _⟩
      · exact h p (hget p hp)
    next => exact fun p hp => h p (hget p hp)

theorem Fresh.step (h : s.Fresh) (ha : s.Careful a) (hstep : s.step a = some t) : t.Fresh := by
  cases a with
  | call c =>
    cases hstep
    intro p hp
    obtain ⟨hle, hsame⟩ := h p hp
    rcases ha with ha | ha
    · rcases Catalog.announced_call ha with ⟨hversion, hschema⟩ | hversion
      · refine ⟨hle.trans hversion.symm.le, fun heq => ?_⟩
        exact (hsame (heq.trans hversion)).trans hschema
      · refine ⟨hle.trans (Catalog.version_le_call c), fun heq => ?_⟩
        rw [hversion] at heq
        omega
    · have hne := ha p hp
      have hmono := @Catalog.version_le_call s.catalog _ c
      refine ⟨hle.trans hmono, fun heq => ?_⟩
      change p.2.catalogVersion = (s.catalog.call c).version at heq
      omega
  | query =>
    cases hstep
    exact h.query
  | clearCache =>
    cases hstep
    nofun

omit [CaseMapping] in
theorem Fresh.cachedPlan {plan : CachedPlan} (h : s.Fresh)
    (hplan : s.cachedPlan normalized = some plan) :
    plan.builtOn.SameSchema s.catalog := by
  unfold PlanSession.cachedPlan at hplan
  rw [PlanCache.get_snd, Option.filter_eq_some_iff] at hplan
  obtain ⟨hlookup, hversion⟩ := hplan
  exact (h _ (PlanCache.mem_of_lookup hlookup)).2 (by simpa using hversion)

/-- In every run of careful steps a plan that answers a query was built on the tables, columns and
indexes of the moment. -/
theorem cached_plans_valid (capacity : Nat) (steps : List PlanStep)
    (hrun : run step (new capacity) steps = some t)
    (hm : Meets step Careful (new capacity) steps) (normalized : String) (plan : CachedPlan)
    (hplan : t.cachedPlan normalized = some plan) : plan.builtOn.SameSchema t.catalog := by
  have hfresh : t.Fresh := by
    refine run_keeps (fun s a t hs ha ht => hs.step ha ht) hrun hm ?_
    nofun
  exact hfresh.cachedPlan hplan

def quietSession : List PlanStep :=
  [.call (.createNodeTable "T" [Catalog.keyColumn "id"]), .query "MATCH (n:T) RETURN n" true,
    .call (.createSequence "s" 0 1 0 9 false), .query "MATCH (n:T) RETURN n" true]

omit [CaseMapping] in
theorem cached_plans_valid_quiet :
    ∃ t, run (@step Catalog.uncased) (new 4) quietSession = some t ∧
      ∃ plan, t.cachedPlan "MATCH (n:T) RETURN n" = some plan ∧ plan.builtOn.SameSchema t.catalog := by
  refine ⟨_, rfl, _, rfl, @cached_plans_valid Catalog.uncased _ 4 quietSession rfl ?_
    "MATCH (n:T) RETURN n" _ rfl⟩
  refine ⟨.inl trivial, fun s hs => ?_⟩
  cases hs
  refine ⟨trivial, fun s hs => ?_⟩
  cases hs
  refine ⟨.inl trivial, fun s hs => ?_⟩
  cases hs
  exact ⟨trivial, fun s hs => trivial⟩

omit [CaseMapping] in
/-- The version does not move when a column is added, so the old plan answers. -/
theorem stale_plan_after_add_column :
    ∃ t, run (@step Catalog.uncased) (new 4)
        [.call (.createNodeTable "T" [Catalog.keyColumn "id"]), .query "MATCH (n:T) RETURN n" true,
          .call (.addColumn "T" (Catalog.plainColumn "b"))] = some t ∧
      ∃ plan, t.cachedPlan "MATCH (n:T) RETURN n" = some plan ∧ ¬plan.builtOn.SameSchema t.catalog := by
  refine ⟨_, rfl, _, rfl, fun h => ?_⟩
  have hfiled := h.filed 0
  revert hfiled
  decide

end PlanSession

end Akar
