import Mathlib.Data.List.Basic
import PackageCoupling.Coupling.Metrics
import PackageCoupling.Proofs.Assembly

/-!
# Metrics are the counts of the graph

The inward side of the metrics is collected by turning every internal import around. Each package is
imported by another one through at most one entry of the graph, so turning around loses nothing and
adds nothing up:

* `importers_eq`: what the inverted graph holds for a package, as one list;
* `find?_inward`: when a package stands on the inward side of another one, and with which count;
* `ofCounts_entries`: collecting the entries of a table gives the table back.
-/

namespace PackageCoupling

namespace Stats

theorem find?_foldl_record {l : List (String × Nat)} (distinct : (l.map (·.1)).Nodup) (s : Stats)
    (fresh : ∀ e ∈ l, s.find? e.1 = none) (k : String) :
    (l.foldl (fun s (id, n) => record s id n) s).find? k = (l.lookup k).or (s.find? k) := by
  induction l generalizing s with
  | nil => rfl
  | cons e rest ih =>
    obtain ⟨id, n⟩ := e
    rw [List.map_cons, List.nodup_cons] at distinct
    have absent : s.find? id = none := fresh _ List.mem_cons_self
    have fresh' : ∀ e ∈ rest, (s.record id n).find? e.1 = none := by
      intro e he
      have ne : e.1 ≠ id := by
        rintro rfl
        exact distinct.1 (List.mem_map.2 ⟨e, he, rfl⟩)
      rw [find?_record, if_neg ne]
      exact fresh e (List.mem_cons_of_mem _ he)
    rw [List.foldl_cons, ih distinct.2 _ fresh', find?_record, Table.lookup_cons_eq]
    by_cases eq : k = id
    · subst eq
      have once : rest.lookup k = none := Table.lookup_eq_none_of_fresh distinct.1
      simp [once, get, absent]
    · simp [eq]

theorem find?_ofCounts {l : List (String × Nat)} (distinct : (l.map (·.1)).Nodup) (k : String) :
    (ofCounts l).find? k = l.lookup k := by
  rw [ofCounts, find?_foldl_record distinct _ (fun _ _ => rfl)]
  simp

theorem ofCounts_entries (s : Stats) : ofCounts s.entries = s := by
  apply Table.ext_find?
  intro k
  rw [find?_ofCounts s.distinct_keys]
  rfl

end Stats

namespace ImportGraph

/-! ## The inverted graph -/

/-- The packages that import another package `p`, with their counts. -/
def inbound (g : ImportGraph) (p : String) : List (String × Nat) :=
  g.table.entries.filterMap fun e =>
    if g.isInternal e.1 p then (e.2.find? p).map (e.1, ·) else none

theorem mem_inbound_iff (g : ImportGraph) (p q : String) (n : Nat) :
    (q, n) ∈ g.inbound p ↔
      g.isInternal q p = true ∧ ∃ s, g.table.find? q = some s ∧ s.find? p = some n := by
  simp only [inbound, List.mem_filterMap]
  constructor
  · rintro ⟨⟨q', s⟩, mem, eq⟩
    split at eq
    · rename_i internal
      obtain ⟨n', found, eq⟩ := Option.map_eq_some_iff.1 eq
      cases eq
      exact ⟨internal, s, (g.table.find?_eq_some_iff _ s).2 mem, found⟩
    · cases eq
  · rintro ⟨internal, s, lookup, found⟩
    refine ⟨(q, s), (g.table.find?_eq_some_iff q s).1 lookup, ?_⟩
    simp [internal, found]

theorem distinct_inbound (g : ImportGraph) (p : String) : ((g.inbound p).map (·.1)).Nodup := by
  rw [List.nodup_iff_pairwise_ne, List.pairwise_map, inbound, List.pairwise_filterMap]
  apply g.table.sorted.imp
  intro a b lt x hx y hy
  have keeps : ∀ {e : String × Stats} {z : String × Nat},
      (if g.isInternal e.1 p then (e.2.find? p).map (e.1, ·) else none) = some z → z.1 = e.1 := by
    intro e z h
    split at h
    · obtain ⟨n, -, rfl⟩ := Option.map_eq_some_iff.1 h
      rfl
    · cases h
  rw [keeps hx, keeps hy]
  exact String.ne_of_lt lt

/-- What the edges lead to `p` from elsewhere. -/
def towards (g : ImportGraph) (p : String) (e : String × String × Nat) : Option (String × Nat) :=
  if e.2.1 = p ∧ g.isInternal e.1 p then some (e.1, e.2.2) else none

/-- An edge is recorded at the package it leads to and nowhere else. -/
theorem find?_invertEdge (g : ImportGraph) (t : Table Stats) (e : String × String × Nat)
    (p : String) :
    ((g.invertEdge t e).find? p).getD Table.empty =
      (g.towards p e).toList.foldl (fun s (id, n) => Stats.record s id n)
        ((t.find? p).getD Table.empty) := by
  unfold invertEdge towards
  by_cases eq : e.2.1 = p
  · subst eq
    by_cases internal : g.isInternal e.1 e.2.1 = true
    · simp [internal, Table.find?_alter]
    · simp [internal]
  · have ne : p ≠ e.2.1 := fun h => eq h.symm
    by_cases internal : g.isInternal e.1 e.2.1 = true
    · simp [internal, Table.find?_alter, eq, ne]
    · simp [internal, eq]

theorem find?_foldl_invertEdge (g : ImportGraph) (es : List (String × String × Nat))
    (t : Table Stats) (p : String) :
    ((es.foldl g.invertEdge t).find? p).getD Table.empty =
      (es.filterMap (g.towards p)).foldl (fun s (id, n) => Stats.record s id n)
        ((t.find? p).getD Table.empty) := by
  induction es generalizing t with
  | nil => rfl
  | cons e rest ih =>
    rw [List.foldl_cons, ih, find?_invertEdge, List.filterMap_cons]
    cases g.towards p e <;> rfl

/-- A package has at most one edge to `p`, so the edges of the whole graph towards `p` are the
packages that import it. -/
theorem filterMap_towards_edges (g : ImportGraph) (p : String) :
    g.edges.filterMap (g.towards p) = g.inbound p := by
  rw [edges, List.filterMap_flatMap, inbound, List.filterMap_eq_flatMap_toList]
  congr 1
  funext e
  obtain ⟨q, s⟩ := e
  rw [List.filterMap_map]
  have single := s.filterMap_at_key p fun n =>
    if g.isInternal q p = true then some (q, n) else none
  by_cases internal : g.isInternal q p = true
  · simpa [Function.comp_def, towards, internal, Option.map_eq_bind] using single
  · simp [towards, internal]

theorem importers_eq (g : ImportGraph) (p : String) :
    (g.importers.find? p).getD Table.empty = Stats.ofCounts (g.inbound p) := by
  rw [importers, find?_foldl_invertEdge, filterMap_towards_edges]
  rfl

/-! ## The records -/

theorem isInternal_iff (g : ImportGraph) (q p : String) :
    g.isInternal q p = true ↔ p ≠ q ∧ g.contains p = true := by
  simp [isInternal]

theorem mem_metrics_iff (g : ImportGraph) (m : Metrics) :
    m ∈ g.metrics ↔ ∃ imports, g.table.find? m.package = some imports ∧ m.outward = imports ∧
      m.inward = Stats.ofCounts (g.inbound m.package) := by
  obtain ⟨package, inward, outward⟩ := m
  simp only [metrics, importers_eq, Stats.ofCounts_entries, List.mem_map, Prod.exists,
    Metrics.mk.injEq, Table.find?_eq_some_iff]
  constructor
  · rintro ⟨p, imports, mem, rfl, rfl, rfl⟩
    exact ⟨imports, mem, rfl, rfl⟩
  · rintro ⟨imports, mem, rfl, rfl⟩
    exact ⟨package, _, mem, rfl, rfl, rfl⟩

/-- A package `q` stands on the inward side of `p` exactly if it is another package and has an entry
for `p`, whose count it brings along. -/
theorem find?_inward {g : ImportGraph} {m : Metrics} (h : m ∈ g.metrics) (q : String) (n : Nat) :
    m.inward.find? q = some n ↔
      q ≠ m.package ∧ ∃ s, g.table.find? q = some s ∧ s.find? m.package = some n := by
  obtain ⟨imports, lookup, -, inward⟩ := (mem_metrics_iff g m).1 h
  have known : g.contains m.package = true := (g.table.contains_iff _).2 ⟨imports, lookup⟩
  rw [inward, Stats.find?_ofCounts (distinct_inbound g _),
    Table.lookup_eq_some_iff_mem (distinct_inbound g _), mem_inbound_iff, isInternal_iff]
  simp only [known, and_true, ne_comm]

theorem stats_outward {g : ImportGraph} {m : Metrics} (h : m ∈ g.metrics) :
    m.outward = g.stats m.package := by
  obtain ⟨imports, lookup, outward, -⟩ := (mem_metrics_iff g m).1 h
  rw [outward, stats, lookup]
  rfl

theorem get_inward {g : ImportGraph} {m : Metrics} (h : m ∈ g.metrics) {q : String}
    (ne : q ≠ m.package) : m.inward.get q = g.count q m.package := by
  rw [Stats.get, count, Stats.get, stats]
  cases found : m.inward.find? q with
  | some n =>
    obtain ⟨-, s, lookup, entry⟩ := (find?_inward h q n).1 found
    simp [lookup, entry]
  | none =>
    cases lookup : g.table.find? q with
    | none => rfl
    | some s =>
      cases entry : s.find? m.package with
      | none => simp [entry]
      | some n =>
        have := (find?_inward h q n).2 ⟨ne, s, lookup, entry⟩
        simp [found] at this

theorem mem_keys_inward_iff {g : ImportGraph} {m : Metrics} (h : m ∈ g.metrics) (q : String) :
    q ∈ m.inward.keys ↔ q ∈ g.packages ∧ q ≠ m.package ∧ m.package ∈ g.imports q := by
  simp only [packages, imports, Table.mem_keys_iff, find?_inward h, stats]
  constructor
  · rintro ⟨n, ne, s, lookup, entry⟩
    exact ⟨⟨s, lookup⟩, ne, n, by simpa [lookup] using entry⟩
  · rintro ⟨⟨s, lookup⟩, ne, n, entry⟩
    exact ⟨n, ne, s, lookup, by simpa [lookup] using entry⟩

/-- The metrics of a graph: one record for each package in order, on its outward side the counts of
what it imports, on its inward side the counts with which the other packages import it. An import of
itself or of what is no package stands on no inward side, so between two packages both sides agree.
-/
theorem metrics_counts (g : ImportGraph) :
    g.metrics.map (·.package) = g.packages ∧
    g.packages.Pairwise Utf8.Before ∧
    (∀ m ∈ g.metrics,
      (∀ i, m.outward.get i = g.count m.package i) ∧
      m.outward.keys = g.imports m.package ∧
      (∀ q ∈ g.packages, q ≠ m.package → m.inward.get q = g.count q m.package) ∧
      (∀ q, q ∈ m.inward.keys ↔
        q ∈ g.packages ∧ q ≠ m.package ∧ m.package ∈ g.imports q)) ∧
    (∀ m ∈ g.metrics, ∀ m' ∈ g.metrics, m.package ≠ m'.package →
      m.inward.get m'.package = m'.outward.get m.package) := by
  refine ⟨?_, (Utf8.pairwise_before_iff _).2 g.table.sorted_keys, ?_, ?_⟩
  · simp [metrics, packages, Table.keys, Function.comp_def]
  · intro m h
    rw [stats_outward h]
    exact ⟨fun _ => rfl, rfl, fun q _ ne => get_inward h ne, mem_keys_inward_iff h⟩
  · intro m h m' h' ne
    rw [get_inward h ne.symm, stats_outward h']
    rfl

/-- Two packages that import each other, one of them also itself and something outside. -/
def cycle : ImportGraph :=
  .ofFiles [⟨"a.go", "a", ["a", "b", "fmt"]⟩, ⟨"b.go", "b", ["a"]⟩, ⟨"c.go", "b", ["a", "fmt"]⟩]

theorem metrics_counts_cycle :
    ∃ m ∈ cycle.metrics, ∃ m' ∈ cycle.metrics, m.package = "a" ∧ m'.package = "b" ∧
      m.inward.get "b" = 2 ∧ "a" ∉ m.inward.keys ∧
      m.inward.get m'.package = m'.outward.get m.package := by
  have packages : cycle.packages = ["a", "b"] := by decide +kernel
  obtain ⟨names, -, counts, symmetric⟩ := metrics_counts cycle
  rw [packages] at names counts
  have record : ∀ p ∈ ["a", "b"], ∃ m ∈ cycle.metrics, m.package = p := by
    intro p hp
    rw [← names] at hp
    exact List.mem_map.1 hp
  obtain ⟨m, hm, a⟩ := record "a" (by decide)
  obtain ⟨m', hm', b⟩ := record "b" (by decide)
  obtain ⟨-, -, inward, keys⟩ := counts m hm
  rw [a] at inward keys
  refine ⟨m, hm, m', hm', a, b, ?_, ?_, ?_⟩
  · rw [inward "b" (by decide) (by decide)]
    decide +kernel
  · rw [keys]
    exact fun h => h.2.1 rfl
  · exact symmetric m hm m' hm' (by rw [a, b]; decide)

end ImportGraph

end PackageCoupling
