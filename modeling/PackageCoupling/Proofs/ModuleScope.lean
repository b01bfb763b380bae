import PackageCoupling.Modules.Map
import PackageCoupling.Proofs.PathText

/-!
# The module that a file belongs to

The search for the nearest module cuts a text at its last slash again and again. On the directory of
a file this walks through the front parts of its segments, from the longest to the shortest, and
ends at the root of the tree (`around_front`). So the module that is found is the one of the longest
front part that holds any, and what remains below it are the segments behind that part.
-/

namespace PackageCoupling.ModuleMap

open PackageCoupling.Path

/-- The first `n` segments as a text; the root of the tree for none. -/
def front (ps : List String) : Nat → String
  | 0 => "."
  | n + 1 => "/".intercalate (ps.take (n + 1))

/-- The segments behind the first `n` as a text; `.` if none remain. -/
def behind (ps : List String) (n : Nat) : String :=
  if n < ps.length then "/".intercalate (ps.drop n) else "."

theorem front_of_pos (ps : List String) {n : Nat} (pos : 0 < n) :
    front ps n = "/".intercalate (ps.take n) := by
  cases n with
  | zero => exact absurd pos (Nat.lt_irrefl 0)
  | succ n => rfl

/-! ## Cutting at the last slash -/

theorem dropWhile_reverse_append {x : List Char} (h : '/' ∉ x) (l : List Char) :
    (x.reverse ++ l).dropWhile (· != '/') = l.dropWhile (· != '/') := by
  apply List.dropWhile_append_of_pos
  intro c hc
  rw [bne_iff_ne]
  rintro rfl
  exact h (List.mem_reverse.1 hc)

theorem around_of_notMem {x : String} (h : '/' ∉ x.toList) : around x = "." := by
  have none : x.toList.reverse.dropWhile (· != '/') = [] := by
    simpa using dropWhile_reverse_append h []
  rw [around, none]

theorem around_append_slash (a : String) {x : String} (h : '/' ∉ x.toList) :
    around (a ++ "/" ++ x) = a := by
  have chars : (a ++ "/" ++ x).toList.reverse = x.toList.reverse ++ '/' :: a.toList.reverse := by
    simp [String.toList_append]
  have cut : (a ++ "/" ++ x).toList.reverse.dropWhile (· != '/') = '/' :: a.toList.reverse := by
    rw [chars, dropWhile_reverse_append h]
    simp
  rw [around, cut]
  simp

/-- One turn of the search leads from a front part to the next shorter one. -/
theorem around_front {ps : List String} (h : ∀ p ∈ ps, '/' ∉ p.toList) {n : Nat}
    (hn : n < ps.length) : around (front ps (n + 1)) = front ps n := by
  have last : '/' ∉ (ps[n]).toList := h _ (List.getElem_mem hn)
  have split : ps.take (n + 1) = ps.take n ++ [ps[n]] := List.take_succ_eq_append_getElem hn
  rw [front, split]
  cases n with
  | zero => simpa [front] using around_of_notMem last
  | succ n =>
    have some : ps.take (n + 1) ≠ [] := by
      rw [← List.length_pos_iff, List.length_take]
      omega
    rw [String.intercalate_append_of_ne_nil some (by simp), String.intercalate_singleton]
    exact around_append_slash _ last

/-! ## Directories of files -/

/-- Segments of a directory other than the root: none is empty or `.`. -/
structure Segments (ps : List String) : Prop where
  ne_nil : ps ≠ []
  ne_empty : ∀ p ∈ ps, p ≠ ""
  ne_dot : ∀ p ∈ ps, p ≠ "."
  noSlash : ∀ p ∈ ps, '/' ∉ p.toList

theorem segments_parent (file : String) (h : parent file ≠ ".") :
    Segments (parts (parent file)) := by
  have proper : ∀ st ∈ (steps file).dropLast, st.Proper :=
    fun st hst => steps_proper file st (List.dropLast_subset _ hst)
  have ne : (steps file).dropLast ≠ [] := by
    intro nil
    rw [parent, nil] at h
    exact h rfl
  have texts : parts (parent file) = (steps file).dropLast.map Step.text :=
    parts_stepsText ne proper
  have each : ∀ p ∈ parts (parent file), ∃ st : Step, st.Proper ∧ st.text = p := by
    intro p hp
    rw [texts] at hp
    obtain ⟨st, hst, rfl⟩ := List.mem_map.1 hp
    exact ⟨st, proper st hst, rfl⟩
  constructor
  · exact parts_ne_nil _
  · intro p hp
    obtain ⟨st, hst, rfl⟩ := each p hp
    exact Step.text_ne_empty hst
  · intro p hp
    obtain ⟨st, hst, rfl⟩ := each p hp
    exact Step.text_ne_dot hst
  · exact fun p hp => slash_notMem_parts hp

variable {ps : List String}

theorem Segments.take_ne_nil (h : Segments ps) {n : Nat} (pos : 0 < n) : ps.take n ≠ [] := by
  rw [Ne, List.take_eq_nil_iff, not_or]
  exact ⟨Nat.ne_of_gt pos, h.ne_nil⟩

theorem front_ne_dot (h : Segments ps) {n : Nat} (pos : 0 < n) : front ps n ≠ "." := by
  intro eq
  have cut :=
    parts_intercalate (h.take_ne_nil pos) fun p hp => h.noSlash p (List.mem_of_mem_take hp)
  rw [← front_of_pos ps pos, eq] at cut
  have dot : "." ∈ ps.take n := by
    rw [← cut]
    decide
  exact h.ne_dot "." (List.mem_of_mem_take dot) rfl

theorem front_append_behind (h : Segments ps) {n : Nat} (pos : 0 < n) (hn : n < ps.length) :
    "/".intercalate ps = front ps n ++ "/" ++ behind ps n := by
  have ne : ps.drop n ≠ [] := by
    rw [← List.length_pos_iff, List.length_drop]
    omega
  rw [front_of_pos ps pos, behind, if_pos hn,
    ← String.intercalate_append_of_ne_nil (h.take_ne_nil pos) ne, List.take_append_drop]

/-- A text of segments does not begin with a slash. -/
theorem dropWhile_slash_behind (h : Segments ps) {n : Nat} (hn : n < ps.length) :
    (behind ps n).toList.dropWhile (· == '/') = (behind ps n).toList := by
  rw [behind, if_pos hn, List.drop_eq_getElem_cons hn]
  generalize ps.drop (n + 1) = rest
  have noSlash := h.noSlash _ (List.getElem_mem hn)
  have ne := h.ne_empty _ (List.getElem_mem hn)
  cases chars : (ps[n]).toList with
  | nil => exact absurd (String.toList_injective chars) ne
  | cons c cs =>
    have hc : c ≠ '/' := by
      rintro rfl
      rw [chars] at noSlash
      exact noSlash List.mem_cons_self
    have start : ∃ tail, ("/".intercalate (ps[n] :: rest)).toList = c :: tail := by
      cases rest with
      | nil => exact ⟨cs, by simpa using chars⟩
      | cons r rest => simp [String.toList_append, chars]
    obtain ⟨tail, eq⟩ := start
    rw [eq, List.dropWhile_cons]
    simp [hc]

theorem below_front (h : Segments ps) {n : Nat} (pos : 0 < n) (hn : n ≤ ps.length) :
    below (front ps n) ("/".intercalate ps) = behind ps n := by
  rcases Nat.lt_or_eq_of_le hn with lt | eq
  · have whole := front_append_behind h pos lt
    have chars : ("/".intercalate ps).toList =
        (front ps n).toList ++ '/' :: (behind ps n).toList := by
      rw [whole]
      simp [String.toList_append]
    have ne : "/".intercalate ps ≠ front ps n := by
      intro eq
      rw [eq] at chars
      have := congrArg List.length chars
      simp at this
    have isPrefix : (front ps n).toList.isPrefixOf ("/".intercalate ps).toList = true := by
      rw [List.isPrefixOf_iff_prefix, chars]
      exact List.prefix_append _ _
    have remaining : ("/".intercalate ps).toList.drop (front ps n).length =
        '/' :: (behind ps n).toList := by
      rw [chars, ← String.length_toList, List.drop_left]
    simp only [below, beq_iff_eq, ne, if_false, isPrefix, if_true, remaining]
    rw [List.dropWhile_cons_of_pos (by simp), dropWhile_slash_behind h lt, String.ofList_toList]
  · subst eq
    rw [front_of_pos ps pos, List.take_length, below, behind]
    simp

/-! ## The search -/

variable (m : ModuleMap)

theorem nearest?_dot : m.nearest? "." = none := by
  rw [nearest?]
  simp

theorem nearest?_front_some (h : Segments ps) {n : Nat} (pos : 0 < n) {id : String}
    (found : m.find? (front ps n) = some id) : m.nearest? (front ps n) = some (front ps n, id) := by
  rw [nearest?, if_neg (front_ne_dot h pos), found]

theorem nearest?_front_none (h : Segments ps) {n : Nat} (hn : n < ps.length)
    (absent : m.find? (front ps (n + 1)) = none) :
    m.nearest? (front ps (n + 1)) = m.nearest? (front ps n) := by
  rw [nearest?, if_neg (front_ne_dot h (Nat.succ_pos n)), absent, around_front h.noSlash hn]

/-- Front parts without a module are passed over. -/
theorem nearest?_front_skip (h : Segments ps) {n k : Nat} (le : n ≤ k) (hk : k ≤ ps.length)
    (absent : ∀ j, n < j → j ≤ k → m.find? (front ps j) = none) :
    m.nearest? (front ps k) = m.nearest? (front ps n) := by
  induction k with
  | zero =>
    obtain rfl : n = 0 := by omega
    rfl
  | succ k ih =>
    rcases Nat.lt_or_eq_of_le le with lt | eq
    · rw [nearest?_front_none m h (by omega) (absent (k + 1) lt (Nat.le_refl _))]
      exact ih (by omega) (by omega) fun j hj hjk => absent j hj (by omega)
    · rw [eq]

/-- The search looks at nothing but front parts. -/
theorem nearest?_front_congr (h : Segments ps) (m' : ModuleMap) {n : Nat} (hn : n ≤ ps.length)
    (same : ∀ j, 0 < j → j ≤ n → m'.find? (front ps j) = m.find? (front ps j)) :
    m'.nearest? (front ps n) = m.nearest? (front ps n) := by
  induction n with
  | zero => rw [front, nearest?_dot, nearest?_dot]
  | succ n ih =>
    have here := same (n + 1) (Nat.succ_pos n) (Nat.le_refl _)
    cases found : m.find? (front ps (n + 1)) with
    | some id =>
      rw [nearest?_front_some m h (Nat.succ_pos n) found,
        nearest?_front_some m' h (Nat.succ_pos n) (here.trans found)]
    | none =>
      rw [nearest?_front_none m h hn found, nearest?_front_none m' h hn (here.trans found)]
      exact ih (by omega) fun j pos hj => same j pos (by omega)

theorem directoryPath_of_some {file outer id : String}
    (h : m.nearest? (parent file) = some (outer, id)) :
    m.directoryPath file = join id (below outer (parent file)) := by
  simp only [directoryPath, h]

theorem directoryPath_of_none {file : String} (h : m.nearest? (parent file) = none) :
    m.directoryPath file =
      match m.find? "." with
      | some id => join id (parent file)
      | none => parent file := by
  cases root : m.find? "." <;> simp only [directoryPath, h, root]

theorem directoryPath_slash (file : String) :
    m.directoryPath (slash file) = m.directoryPath file := by
  simp only [directoryPath, parent_slash]

theorem front_length (h : Segments ps) : front ps ps.length = "/".intercalate ps := by
  rw [front_of_pos ps (List.length_pos_iff.2 h.ne_nil), List.take_length]

/-- The longest front part with a module decides. At the root of the tree the only segment is `.`,
and its module is the one of the root. -/
theorem directoryPath_of_front {file : String} {n : Nat} {id : String} (pos : 0 < n)
    (hn : n ≤ (parts (parent file)).length)
    (found : m.find? (front (parts (parent file)) n) = some id)
    (longest : ∀ k, n < k → k ≤ (parts (parent file)).length →
      m.find? (front (parts (parent file)) k) = none) :
    m.directoryPath file = join id (behind (parts (parent file)) n) := by
  by_cases root : parent file = "."
  · rw [root] at hn found ⊢
    obtain rfl : n = 1 := Nat.le_antisymm hn pos
    have found : m.find? "." = some id := found
    rw [directoryPath_of_none m (by rw [root, nearest?_dot]), found, root]
    rfl
  · have segments := segments_parent file root
    have whole := intercalate_parts (parent file)
    have nearest : m.nearest? (parent file) = some (front (parts (parent file)) n, id) := by
      rw [← nearest?_front_some m segments pos found, ← nearest?_front_skip m segments hn
        (Nat.le_refl _) longest, front_length segments, whole]
    rw [directoryPath_of_some m nearest]
    nth_rewrite 2 [← whole]
    rw [below_front segments pos hn]

theorem nearest?_parent_none {file : String}
    (absent : ∀ n, 0 < n → n ≤ (parts (parent file)).length →
      m.find? (front (parts (parent file)) n) = none) : m.nearest? (parent file) = none := by
  by_cases root : parent file = "."
  · rw [root, nearest?_dot]
  · have segments := segments_parent file root
    have skipped := nearest?_front_skip m segments (Nat.zero_le _) (Nat.le_refl _) absent
    rw [front_length segments, intercalate_parts] at skipped
    rw [skipped, front, nearest?_dot]

theorem directoryPath_congr (m' : ModuleMap) {file : String} (root : m'.find? "." = m.find? ".")
    (same : ∀ n, 0 < n → n ≤ (parts (parent file)).length →
      m'.find? (front (parts (parent file)) n) = m.find? (front (parts (parent file)) n)) :
    m'.directoryPath file = m.directoryPath file := by
  have nearest : m'.nearest? (parent file) = m.nearest? (parent file) := by
    by_cases dot : parent file = "."
    · rw [dot, nearest?_dot, nearest?_dot]
    · have segments := segments_parent file dot
      have := nearest?_front_congr m segments m' (Nat.le_refl _) same
      rwa [front_length segments, intercalate_parts] at this
  simp only [directoryPath, nearest, root]

/-- The path of a file's directory: below the longest front part of its segments that holds a
module, else below the root of the tree if that holds one, else as it is. Only the modules of these
front parts and of the root matter. -/
theorem directoryPath_eq_nearest (m : ModuleMap) (file : String) :
    let dir := parent file
    let ps := parts dir
    (∀ n id, 0 < n → n ≤ ps.length → m.find? ("/".intercalate (ps.take n)) = some id →
      (∀ k, n < k → k ≤ ps.length → m.find? ("/".intercalate (ps.take k)) = none) →
      m.directoryPath file =
        join id (if n = ps.length then "." else "/".intercalate (ps.drop n))) ∧
    ((∀ n, 0 < n → n ≤ ps.length → m.find? ("/".intercalate (ps.take n)) = none) →
      (∀ id, m.find? "." = some id → m.directoryPath file = join id dir) ∧
      (m.find? "." = none → m.directoryPath file = dir)) ∧
    (∀ m' : ModuleMap, m'.find? "." = m.find? "." →
      (∀ n, 0 < n → n ≤ ps.length →
        m'.find? ("/".intercalate (ps.take n)) = m.find? ("/".intercalate (ps.take n))) →
      m'.directoryPath file = m.directoryPath file) ∧
    (∀ d id, d ≠ "." → (∀ n, 0 < n → n ≤ ps.length → d ≠ "/".intercalate (ps.take n)) →
      directoryPath (m.insert d id) file = m.directoryPath file) := by
  intro dir ps
  have written : ∀ n, 0 < n → "/".intercalate (ps.take n) = front ps n :=
    fun n pos => (front_of_pos ps pos).symm
  have agree : ∀ m' : ModuleMap, m'.find? "." = m.find? "." →
      (∀ n, 0 < n → n ≤ ps.length →
        m'.find? ("/".intercalate (ps.take n)) = m.find? ("/".intercalate (ps.take n))) →
      m'.directoryPath file = m.directoryPath file := by
    intro m' root same
    apply directoryPath_congr m m' root
    intro n pos hn
    rw [← written n pos]
    exact same n pos hn
  refine ⟨?_, ?_, agree, ?_⟩
  · intro n id pos hn found longest
    rw [written n pos] at found
    have longest' : ∀ k, n < k → k ≤ ps.length → m.find? (front ps k) = none := by
      intro k hk hl
      rw [← written k (by omega)]
      exact longest k hk hl
    have remaining : behind ps n = if n = ps.length then "." else "/".intercalate (ps.drop n) := by
      rcases Nat.lt_or_eq_of_le hn with lt | eq
      · rw [behind, if_pos lt, if_neg (Nat.ne_of_lt lt)]
      · rw [behind, if_neg (by omega), if_pos eq]
    rw [directoryPath_of_front m pos hn found longest', remaining]
  · intro absent
    have none : m.nearest? dir = none := by
      apply nearest?_parent_none m
      intro n pos hn
      rw [← written n pos]
      exact absent n pos hn
    rw [directoryPath_of_none m none]
    constructor
    · intro id found
      rw [found]
    · intro missing
      rw [missing]
  · intro d id ne elsewhere
    apply agree
    · rw [Table.find?_insert, if_neg (Ne.symm ne)]
    · intro n pos hn
      rw [Table.find?_insert, if_neg (Ne.symm (elsewhere n pos hn))]

/-- A module in `src` does not concern `srcgen`, and one in `srcgen` does. -/
theorem directoryPath_eq_nearest_sibling :
    let m : ModuleMap := Table.empty.insert "." "example.com/root"
    directoryPath (m.insert "src" "example.com/src") "srcgen/main.go" =
      m.directoryPath "srcgen/main.go" ∧
    directoryPath (m.insert "srcgen" "example.com/gen") "srcgen/main.go" = "example.com/gen" := by
  intro m
  have segments : parts (parent "srcgen/main.go") = ["srcgen"] := by decide +kernel
  constructor
  · apply (directoryPath_eq_nearest m "srcgen/main.go").2.2.2 "src" "example.com/src" (by decide)
    intro n pos hn
    rw [segments] at hn ⊢
    obtain rfl : n = 1 := Nat.le_antisymm hn pos
    decide
  · have found :=
      (directoryPath_eq_nearest (m.insert "srcgen" "example.com/gen") "srcgen/main.go").1
      1 "example.com/gen" (by decide)
    rw [segments] at found
    have longest : ∀ k, 1 < k → k ≤ ["srcgen"].length →
        (m.insert "srcgen" "example.com/gen").find? ("/".intercalate (["srcgen"].take k)) =
          none := by
      intro k hk hl
      exact absurd hl (Nat.not_le.2 hk)
    rw [found (by decide) (by simp) longest]
    decide +kernel

end PackageCoupling.ModuleMap
