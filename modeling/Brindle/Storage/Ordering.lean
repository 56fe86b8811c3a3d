/-
# Brindle.Storage.Ordering — an index scan in place of a sort.

A plan that reads `ORDER BY column <-> query` off an index scan has no sort: the tuples had better come
in the order of the operator. The index never computes the operator. It ranks by its metric's distance,
from the query to the column's vector and, for L2, squared. What is squared comes out in the order of its
square roots, since the rounded root keeps order; and the operands may be swapped.
-/
import Brindle.Hnsw.Discards
import Brindle.Operators
import Brindle.Storage.Executor

namespace Brindle

open Outcome (Ensures)
open Run (Along run)

/-! ## From the distance to the operator's value -/

namespace F32

theorem Same.farness_eq {a b : F32} (h : Same a b) : a.farness = b.farness := by
  rcases h with rfl | ⟨ha, hb⟩
  · rfl
  · rw [farness_nan ha, farness_nan hb]

variable [Arith] [Arith.Conforms] {a b : F32}

theorem isNan_sqrt_eq (ha : a.isNan = true ∨ a.Nonneg) : (Arith.f32Sqrt a).isNan = a.isNan := by
  rcases ha with hnan | ha
  · rw [isNan_sqrt hnan, hnan]
  · rw [(sqrt_mono le_rfl ha).1.isNan_eq, ha.isNan_eq]

/-- Farther means no nearer under the root. -/
theorem farness_sqrt_le (ha : a.isNan = true ∨ a.Nonneg) (hb : b.isNan = true ∨ b.Nonneg)
    (h : a.farness ≤ b.farness) : (Arith.f32Sqrt a).farness ≤ (Arith.f32Sqrt b).farness := by
  rcases hb with hnan | hb
  · rw [farness_nan (isNan_sqrt hnan)]
    exact le_top
  · rcases ha with hnan | ha
    · rw [farness_nan hnan, farness_number hb.isNan_eq] at h
      exact absurd h (WithTop.not_top_le_coe _)
    · rw [farness_number ha.isNan_eq, farness_number hb.isNan_eq, WithTop.coe_le_coe, ha.signed_eq,
        hb.signed_eq] at h
      obtain ⟨hroot, hle⟩ := sqrt_mono (by exact_mod_cast h) hb
      have hroot' := (sqrt_mono le_rfl ha).1
      rw [farness_number hroot'.isNan_eq, farness_number hroot.isNan_eq, hroot'.signed_eq,
        hroot.signed_eq]
      exact_mod_cast hle

end F32

section Operator

variable [Arith]

/-- What the operator shows of the distance an index ranks by. -/
def Metric.shown : Metric → F32 → F32
  | .l2, d => Arith.f32Sqrt d
  | .cosine, d => d
  | .innerProduct, d => d

/-- The operator's value on a column and a query; none where either is null or the dimensions differ. -/
def OperatorClass.value (c : OperatorClass) (query : List F32) (vector : Option (List F32)) :
    Option F32 :=
  vector.bind fun v => (c.orderBy v query).toOption

variable [Arith.Conforms] {metric : Metric} {query u v : List F32} {d e : F32}

theorem Metric.isNan_shown (hd : metric.distance query v = .ok d) :
    (metric.shown d).isNan = d.isNan := by
  rcases metric with _ | _ | _
  · exact F32.isNan_sqrt_eq (l2Squared_magnitude hd)
  · rfl
  · rfl

theorem Metric.shown_le (hd : metric.distance query u = .ok d) (he : metric.distance query v = .ok e)
    (h : d.farness ≤ e.farness) : (metric.shown d).farness ≤ (metric.shown e).farness := by
  rcases metric with _ | _ | _
  · exact F32.farness_sqrt_le (l2Squared_magnitude hd) (l2Squared_magnitude he) h
  · exact h
  · exact h

namespace OperatorClass

variable {c : OperatorClass}

/-- **The operator's value is the distance**, shown: the operands are the other way around. -/
theorem value_of_distance (hc : c ∈ shipped) (hmetric : c.indexMetric = .ok metric)
    (hd : metric.distance query v = .ok d) :
    ∃ x, c.value query (some v) = some x ∧ x.Same (metric.shown d) := by
  have hshown : c.orderBy query v = .ok (metric.shown d) ∧
      Swapped (c.orderBy query v) (c.orderBy v query) := by
    obtain ⟨metric', kind, hmetric', -, -, horder⟩ := shipped_consistent c hc
    obtain rfl : metric = metric' := Except.ok.inj (hmetric.symm.trans hmetric')
    rcases horder with ⟨rfl, horder⟩ | ⟨hne, horder⟩ <;> rw [horder]
    · have hsquared : l2Squared query v = .ok d := hd
      refine ⟨?_, l2Distance_swapped query v⟩
      simp [l2Distance, hsquared, Metric.shown]
    · refine ⟨hd.trans ?_, metric.distance_swapped query v⟩
      rcases metric with _ | _ | _
      · exact absurd rfl hne
      · rfl
      · rfl
  obtain ⟨hvalue, hswapped⟩ := hshown
  rw [hvalue] at hswapped
  rcases hx : c.orderBy v query with err | x <;> rw [hx] at hswapped
  · exact hswapped.elim
  · exact ⟨x, by simp [value, hx, Except.toOption], hswapped.symm⟩

end OperatorClass

end Operator

/-! ## Every reachable state -/

namespace Cluster

open OperatorClass (shipped)

variable [Arith] [Arith.Conforms] {capacity : Nat} {build : Build}

/-- **An index scan needs no sort.** Through an index of any shipped operator class, in every state the
backends reach, the operator has a value on each tuple that a scan with an order returns, and after a
number comes no smaller one. -/
theorem ordered_scan_sorted (hcap : metaSize ≤ capacity) (fork : Fork capacity)
    (hfit : build.Fits) (hfork : build.fork = .ok fork) (actions : List ClusterAction)
    (halong : Along (step build.arity) (fun s a => s.Fits build a ∧ s.rewrites < 2 ^ 64)
      (start fork) actions) :
    Ensures (run (step build.arity) (start fork) actions) fun s =>
      ∀ copy, loadIndexWithGeneration build.arity s.fork = .ok copy →
        ∀ c ∈ shipped, c.indexMetric = .ok copy.hnsw.metric →
          ∀ (q : Quals) (heap : List HeapTuple), q.Covers heap (build.indexed s.history) →
            ∀ query efSearch, (copy.hnsw.n ≠ 0 → query.length = copy.hnsw.dim) → Ensures
              (ScanSearch.new.rescan copy ⟨false, q.index, q.keys, .vector query, efSearch⟩)
              fun scan =>
                (∀ t ∈ q.executed heap scan.tuples, ∃ x, c.value query t.vector = some x) ∧
                (q.executed heap scan.tuples).Pairwise fun a b =>
                  ∀ x y, c.value query a.vector = some x → c.value query b.vector = some y →
                    x.isNan = false → x.farness ≤ y.farness := by
  refine (indexed_run hcap hfit hfork halong).mono ?_
  rintro s ⟨image, X⟩ copy hload c hc hmetric q heap K query efSearch hq
  obtain ⟨S, hcontents⟩ := X.loaded hcap hload
  refine (ScanSearch.start_spec S.valid S.kept.1 hq efSearch).mono ?_
  rintro scan ⟨hrecheck, hits, H, hresults⟩
  have hfound := H.rows_le S.valid
  rw [hcontents] at hfound
  have htuples : scan.tuples = ((hits.map (Hnsw.SoundHits.rowOf copy)).map Row.tid).map fun tid =>
      (tid, (predicateFromKeys q.index q.keys).recheck) := by
    have htids : (hits.map (Hnsw.SoundHits.rowOf copy)).map Row.tid =
        hits.map fun hit => copy.tids.getD hit.2 (0, 0) := List.map_map
    unfold ScanSearch.tuples
    rw [hrecheck, hresults, htids]
  have hvalue : ∀ hit ∈ hits, ∃ x, c.value query (Hnsw.SoundHits.rowOf copy hit).vector = some x ∧
      x.Same (copy.hnsw.metric.shown hit.1) := by
    intro hit hhit
    obtain ⟨v, hvector, hdist⟩ := H.distance_rowOf S.valid hhit
    rw [hvector]
    exact OperatorClass.value_of_distance hc hmetric hdist
  obtain ⟨-, -, hrow, hpairwise⟩ := K.ordered_executed (R := fun u v =>
    ∀ x y, c.value query u = some x → c.value query v = some y → x.isNan = false →
      x.farness ≤ y.farness) hfound (by
    refine List.pairwise_map.mpr (H.increasing.imp_of_mem ?_)
    intro p r hp hr hpr x y hx hy hnumber
    obtain ⟨x', hx', hsame⟩ := hvalue p hp
    obtain ⟨y', hy', hsame'⟩ := hvalue r hr
    obtain rfl : x' = x := Option.some.inj (hx'.symm.trans hx)
    obtain rfl : y' = y := Option.some.inj (hy'.symm.trans hy)
    obtain ⟨u, -, hu⟩ := H.distance_rowOf S.valid hp
    obtain ⟨v, -, hv⟩ := H.distance_rowOf S.valid hr
    rw [hsame.farness_eq, hsame'.farness_eq]
    -- a number the operator shows is the distance's
    rw [hsame.isNan_eq, Metric.isNan_shown hu] at hnumber
    exact Metric.shown_le hu hv (F32.farness_le (.inl hnumber) (Cand.totalKey_le hpr.le)))
  rw [htuples]
  refine ⟨fun t ht => ?_, hpairwise⟩
  obtain ⟨row, hrow, hvector⟩ := hrow t ht
  obtain ⟨hit, hhit, rfl⟩ := List.mem_map.mp hrow
  obtain ⟨x, hx, -⟩ := hvalue hit hhit
  exact ⟨x, hvector ▸ hx⟩

/-- Every row with a vector, of the priced ones. -/
def pricedOpen : Quals := { pricedQuals with keys := [] }

omit [Arith] [Arith.Conforms] in
theorem ordered_scan_sorted_sample :
    Ensures (@Build.fork 8168 Arith.ieee pricedBuild) fun fork =>
      Ensures (run (@step 8168 Arith.ieee pricedBuild.arity) (start fork) pricedActions) fun s =>
        Ensures (@loadIndexWithGeneration 8168 Arith.ieee pricedBuild.arity s.fork) fun copy =>
          Ensures (@ScanSearch.rescan Arith.ieee .new copy
              ⟨false, pricedOpen.index, pricedOpen.keys, .vector [F32.zero], 2⟩) fun scan =>
            (∀ t ∈ pricedOpen.executed pricedHeap scan.tuples,
              ∃ x, (@OperatorClass.vectorL2Ops Arith.ieee).value [F32.zero] t.vector = some x) ∧
            (pricedOpen.executed pricedHeap scan.tuples).Pairwise fun a b =>
              ∀ x y, (@OperatorClass.vectorL2Ops Arith.ieee).value [F32.zero] a.vector = some x →
                (@OperatorClass.vectorL2Ops Arith.ieee).value [F32.zero] b.vector = some y →
                  x.isNan = false → x.farness ≤ y.farness := by
  obtain ⟨fork, hfork, halong, s, hrun, hrows, copy, hload, hdim, hmetric⟩ := priced_run
  have hcovers : pricedOpen.Covers pricedHeap (pricedBuild.indexed s.history) :=
    hrows ▸ ⟨pricedQuals_covers.nodup, pricedQuals_covers.entry⟩
  have h := (@ordered_scan_sorted Arith.ieee _ 8168 pricedBuild (by decide) fork
    (by decide +kernel) hfork pricedActions halong).elim hrun copy hload
    (@OperatorClass.vectorL2Ops Arith.ieee) (by simp [shipped]) (hmetric ▸ rfl) pricedOpen pricedHeap
    hcovers [F32.zero] 2 fun _ => hdim.symm
  exact ⟨fork, hfork, s, hrun, copy, hload, h⟩

omit [Arith] [Arith.Conforms] in
example : Ensures (@Build.fork 8168 Arith.ieee pricedBuild) fun fork =>
    Ensures (run (@step 8168 Arith.ieee pricedBuild.arity) (start fork) pricedActions) fun s =>
      Ensures (@loadIndexWithGeneration 8168 Arith.ieee pricedBuild.arity s.fork) fun copy =>
        Ensures (@ScanSearch.rescan Arith.ieee .new copy
            ⟨false, pricedOpen.index, pricedOpen.keys, .vector [F32.zero], 2⟩) fun scan =>
          (pricedOpen.executed pricedHeap scan.tuples).map HeapTuple.tid = [(0, 2), (0, 1)] := by
  decide +kernel

end Cluster

end Brindle
