import Mathlib.Algebra.Order.Group.Nat
import Mathlib.Data.Nat.ModEq
import Mathlib.Tactic.Ring

/-!
# Trees of tables

A tree of tables of a fixed shape maps addresses. A table of level `l` is split into entries of
`size l` addresses each, and an entry is either a table of the next level or not. `pos l a` is
the position of the entry of level `l` for the address `a` among all entries that this level
could have. So the entries of a tree are a function of levels and positions, of which those
matter that a walk comes to: `Path` says that the entries for `a` above level `l` are tables, and
`Stops` that the one of level `l` is not. Addresses that differ by the span of the root table are
not told apart.
-/

namespace Radix

theorem mod_ne_of_lt {a b s : ℕ} (hab : a < b) (hb : b < a + s) : a % s ≠ b % s := by
  intro h
  obtain ⟨x, rfl⟩ := Nat.exists_eq_add_of_le hab.le
  have hx : (0 : ℕ) ≡ x [MOD s] := Nat.ModEq.add_left_cancel' a h
  have := hx.eq_of_lt_of_lt (by omega) (by omega)
  omega

theorem sub_div_of_le_mod {a d s : ℕ} (h : d ≤ a % s) : (a - d) / s = a / s := by
  have hsplit := Nat.div_add_mod a s
  rcases Nat.eq_zero_or_pos s with rfl | hs
  · rw [Nat.div_zero, Nat.div_zero]
  · rw [show a - d = s * (a / s) + (a % s - d) by omega, Nat.mul_add_div hs,
      Nat.div_eq_of_lt ((Nat.sub_le _ _).trans_lt (Nat.mod_lt a hs)), Nat.add_zero]

/-- The levels of a tree of tables, with the number of addresses of an entry of each level and
of the whole tree. -/
structure Shape where
  depth : ℕ
  size : ℕ → ℕ
  span : ℕ
  depth_pos : 0 < depth
  size_pos : ∀ l, 0 < size l
  size_dvd : ∀ l, l + 1 < depth → size (l + 1) ∣ size l
  span_dvd : size 0 ∣ span
  span_pos : 0 < span

namespace Shape

variable (g : Shape)

/-- The number of entries a level could have. -/
def count (l : ℕ) : ℕ := g.span / g.size l

/-- The position of the entry of an address. -/
def pos (l a : ℕ) : ℕ := a / g.size l % g.count l

def fanout : ℕ → ℕ
  | 0 => g.count 0
  | l + 1 => g.size l / g.size (l + 1)

def index (l a : ℕ) : ℕ := a / g.size l % g.fanout l

variable {g} {i l a b : ℕ}

theorem size_dvd_of_le (hl : l < g.depth) (h : i ≤ l) : g.size l ∣ g.size i := by
  induction l, h using Nat.le_induction with
  | base => exact dvd_rfl
  | succ l _ ih => exact (g.size_dvd l hl).trans (ih (by omega))

theorem size_le_of_le (hl : l < g.depth) (h : i ≤ l) : g.size l ≤ g.size i :=
  Nat.le_of_dvd (g.size_pos i) (size_dvd_of_le hl h)

theorem size_dvd_span (hl : l < g.depth) : g.size l ∣ g.span :=
  (size_dvd_of_le hl (Nat.zero_le l)).trans g.span_dvd

theorem count_mul_size (hl : l < g.depth) : g.count l * g.size l = g.span :=
  Nat.div_mul_cancel (size_dvd_span hl)

theorem count_pos (hl : l < g.depth) : 0 < g.count l :=
  Nat.div_pos (Nat.le_of_dvd g.span_pos (size_dvd_span hl)) (g.size_pos l)

theorem pos_of_le (hl : l < g.depth) (h : i ≤ l) (a : ℕ) :
    g.pos i a = g.pos l a / (g.size i / g.size l) := by
  obtain ⟨q, hq⟩ := size_dvd_of_le hl h
  have hqpos : 0 < q := Nat.pos_of_mul_pos_left (hq ▸ g.size_pos i)
  have hcount : g.count l = q * g.count i := by
    rw [count, count]
    obtain ⟨c, hc⟩ := size_dvd_span (hl.trans_le' h)
    rw [hc, Nat.mul_div_cancel_left _ (g.size_pos i), hq, Nat.mul_assoc,
      Nat.mul_div_cancel_left _ (g.size_pos l)]
  rw [pos, pos, hcount, hq, Nat.mul_div_cancel_left _ (g.size_pos l), Nat.mod_mul_right_div_self,
    Nat.div_div_eq_div_mul]

theorem pos_eq_of_le (hl : l < g.depth) (h : i ≤ l) (hpos : g.pos l a = g.pos l b) :
    g.pos i a = g.pos i b := by
  rw [pos_of_le hl h, pos_of_le hl h, hpos]

theorem pos_add (ha : g.size l ∣ a) {x : ℕ} (hx : x < g.size l) :
    g.pos l (a + x) = g.pos l a := by
  obtain ⟨q, rfl⟩ := ha
  rw [pos, pos, Nat.mul_add_div (g.size_pos l), Nat.div_eq_of_lt hx, Nat.add_zero,
    Nat.mul_div_cancel_left _ (g.size_pos l)]

theorem mod_span_of_pos_eq (hl : l < g.depth) (ha : g.size l ∣ a) (h : g.pos l b = g.pos l a) :
    b % g.span = (a + b % g.size l) % g.span := by
  obtain ⟨q, rfl⟩ := ha
  have hspan : g.span = g.size l * g.count l := by rw [Nat.mul_comm, count_mul_size hl]
  have hlt := Nat.mod_lt b (g.size_pos l)
  rw [pos, pos, Nat.mul_div_cancel_left _ (g.size_pos l)] at h
  rw [hspan, Nat.mod_mul, Nat.mod_mul, h, Nat.mul_add_mod, Nat.mod_mod,
    Nat.mul_add_div (g.size_pos l), Nat.div_eq_of_lt hlt, Nat.add_zero]

theorem pos_eq_of_mod_span (hl : l < g.depth) (h : a % g.span = b % g.span) :
    g.pos l a = g.pos l b := by
  have hspan : g.span = g.size l * g.count l := by rw [Nat.mul_comm, count_mul_size hl]
  have hpos : ∀ a, g.pos l a = a % g.span / g.size l := by
    intro a
    rw [pos, hspan, Nat.mod_mul_right_div_self]
  rw [hpos, hpos, h]

theorem pos_eq_iff (hl : l < g.depth) (ha : g.size l ∣ a) :
    g.pos l b = g.pos l a ↔ ∃ x < g.size l, b % g.span = (a + x) % g.span := by
  constructor
  · intro h
    exact ⟨b % g.size l, Nat.mod_lt b (g.size_pos l), mod_span_of_pos_eq hl ha h⟩
  · rintro ⟨x, hx, hmod⟩
    rw [pos_eq_of_mod_span hl hmod, pos_add ha hx]

theorem pos_ne_of_le (hl : l < g.depth) (ha : g.size l ∣ a) (hle : a + g.size l ≤ b)
    (hlt : b < a + g.span) : g.pos l b ≠ g.pos l a := by
  intro h
  obtain ⟨x, hx, hmod⟩ := (pos_eq_iff hl ha).mp h
  obtain ⟨y, rfl⟩ : ∃ y, b = a + y := ⟨b - a, by omega⟩
  have hsize : g.size l ≤ g.span := Nat.le_of_dvd g.span_pos (size_dvd_span hl)
  have hxy : y ≡ x [MOD g.span] := Nat.ModEq.add_left_cancel' a hmod
  have := hxy.eq_of_lt_of_lt (by omega) (by omega)
  omega

theorem not_pos_eq_and (hl : l < g.depth) (hi : i < g.depth) (ha : g.size l ∣ a)
    (hb : g.size i ∣ b) (hle : a + g.size l ≤ b) (hspan : b + g.size i ≤ a + g.span) {c : ℕ} :
    ¬ (g.pos l c = g.pos l a ∧ g.pos i c = g.pos i b) := by
  rintro ⟨hca, hcb⟩
  obtain ⟨x, hx, hxmod⟩ := (pos_eq_iff hl ha).mp hca
  obtain ⟨y, hy, hymod⟩ := (pos_eq_iff hi hb).mp hcb
  obtain ⟨z, rfl⟩ : ∃ z, b = a + z := ⟨b - a, by omega⟩
  have hmod : a + x ≡ a + (z + y) [MOD g.span] := by
    rw [← Nat.add_assoc]
    exact hxmod.symm.trans hymod
  have := (Nat.ModEq.add_left_cancel' a hmod).eq_of_lt_of_lt (by omega) (by omega)
  omega

theorem index_eq (hl : l < g.depth) (a : ℕ) : g.index l a = g.pos l a % g.fanout l := by
  cases l with
  | zero => rw [index, pos, fanout, Nat.mod_mod]
  | succ l =>
      obtain ⟨q, hq⟩ := g.size_dvd l hl
      have hdvd : g.fanout (l + 1) ∣ g.count (l + 1) := by
        obtain ⟨c, hc⟩ := size_dvd_span (g := g) (l := l) (by omega)
        refine ⟨c, ?_⟩
        rw [count, fanout, hc, hq, Nat.mul_div_cancel_left _ (g.size_pos _), Nat.mul_assoc,
          Nat.mul_div_cancel_left _ (g.size_pos _)]
      rw [index, pos, Nat.mod_mod_of_dvd _ hdvd]

theorem fanout_pos (hl : l < g.depth) : 0 < g.fanout l := by
  cases l with
  | zero => exact count_pos hl
  | succ l =>
      exact Nat.div_pos (Nat.le_of_dvd (g.size_pos l) (g.size_dvd l hl)) (g.size_pos _)

theorem index_lt (hl : l < g.depth) (a : ℕ) : g.index l a < g.fanout l :=
  Nat.mod_lt _ (fanout_pos hl)

theorem pos_of_lap (hl : l < g.depth) {q : ℕ} (hq : q * g.span ≤ a) (ha : a < (q + 1) * g.span) :
    g.pos l a = (a - q * g.span) / g.size l := by
  have hspan : g.span = g.size l * g.count l := by rw [Nat.mul_comm, count_mul_size hl]
  rw [Nat.add_mul, Nat.one_mul] at ha
  obtain ⟨x, rfl⟩ := Nat.exists_eq_add_of_le hq
  have hx : x < g.span := by omega
  rw [Nat.add_sub_cancel_left, pos_eq_of_mod_span (b := x) hl (Nat.mul_add_mod_self_right _ _ _),
    pos, Nat.mod_eq_of_lt]
  exact Nat.div_lt_of_lt_mul (hspan ▸ hx)

theorem pos_eq_iff_of_lap (hl : l < g.depth) {q : ℕ} (hqa : q * g.span ≤ a)
    (ha : a < (q + 1) * g.span) (hqb : q * g.span ≤ b) (hb : b < (q + 1) * g.span) :
    g.pos l a = g.pos l b ↔ a / g.size l = b / g.size l := by
  have hspan : q * g.span = g.size l * (q * g.count l) := by
    rw [← count_mul_size hl]
    ring
  have hdiv : ∀ {c}, q * g.span ≤ c → (c - q * g.span) / g.size l + q * g.count l =
      c / g.size l := by
    intro c hc
    rw [hspan] at hc ⊢
    rw [Nat.sub_mul_div, Nat.sub_add_cancel ((Nat.le_div_iff_mul_le (g.size_pos l)).mpr _)]
    rwa [Nat.mul_comm]
  rw [pos_of_lap hl hqa ha, pos_of_lap hl hqb hb, ← hdiv hqa, ← hdiv hqb, Nat.add_right_cancel_iff]

theorem pos_mono (hl : l < g.depth) {q : ℕ} (hq : q * g.span ≤ a) (hab : a ≤ b)
    (hb : b < (q + 1) * g.span) : g.pos l a ≤ g.pos l b := by
  rw [pos_of_lap hl hq (hab.trans_lt hb), pos_of_lap hl (hq.trans hab) hb]
  exact Nat.div_le_div_right (Nat.sub_le_sub_right hab _)

theorem pos_ne_of_dvd (hl : l < g.depth) {q : ℕ} (hq : q * g.span ≤ a) (hab : a < b)
    (hb : b < (q + 1) * g.span) (hdvd : g.size l ∣ b) : g.pos l b ≠ g.pos l a := by
  rw [pos_of_lap hl hq (hab.trans hb), pos_of_lap hl (hq.trans hab.le) hb]
  refine (Nat.div_lt_of_lt_mul ?_).ne'
  rw [Nat.mul_div_cancel' (Nat.dvd_sub hdvd ((size_dvd_span hl).mul_left q))]
  omega

theorem pos_eq_of_between (hl : l < g.depth) {q c : ℕ} (hq : q * g.span ≤ a) (hab : a ≤ b)
    (hbc : b ≤ c) (hc : c < (q + 1) * g.span) (h : g.pos l c = g.pos l a) :
    g.pos l b = g.pos l a :=
  le_antisymm (h ▸ pos_mono hl (hq.trans hab) hbc hc) (pos_mono hl hq hab (hbc.trans_lt hc))

theorem add_rest (hl : l < g.depth) (ha : g.size l ∣ a) :
    a + (g.fanout l - g.index l a) * g.size l =
      (a / (g.fanout l * g.size l) + 1) * (g.fanout l * g.size l) := by
  obtain ⟨c, rfl⟩ := ha
  have hpos := g.size_pos l
  have hlt := Nat.mod_lt c (fanout_pos hl)
  have hdiv := Nat.div_add_mod c (g.fanout l)
  rw [index, Nat.mul_div_cancel_left _ hpos, Nat.mul_comm (g.size l) c,
    Nat.mul_div_mul_right _ _ hpos, ← Nat.add_mul, ← Nat.mul_assoc,
    Nat.succ_mul, Nat.mul_comm (c / g.fanout l)]
  congr 1
  omega

theorem fanout_mul_size_le (hl : l < g.depth) : g.fanout l * g.size l ≤ g.span := by
  cases l with
  | zero => exact (count_mul_size hl).le
  | succ l =>
      rw [fanout, Nat.div_mul_cancel (g.size_dvd l hl)]
      exact Nat.le_of_dvd g.span_pos (size_dvd_span (Nat.lt_of_succ_lt hl))

/-- The addresses of a table behind that of an entry share the entries above. -/
theorem pos_add_of_lt (hl : l < g.depth) (hi : i < l) (ha : g.size l ∣ a) {x : ℕ}
    (hx : x < (g.fanout l - g.index l a) * g.size l) : g.pos i (a + x) = g.pos i a := by
  obtain ⟨l, rfl⟩ : ∃ k, l = k + 1 := ⟨l - 1, by omega⟩
  refine pos_eq_of_le (by omega) (Nat.le_of_lt_succ hi) ?_
  obtain ⟨q, hq⟩ := g.size_dvd l hl
  obtain ⟨c, rfl⟩ := ha
  have hpos := g.size_pos (l + 1)
  have hfan : g.fanout (l + 1) = q := by
    rw [fanout, hq, Nat.mul_div_cancel_left _ hpos]
  rw [index, hfan, Nat.mul_div_cancel_left _ hpos] at hx
  have hqpos : 0 < q := by
    rw [← hfan]
    exact fanout_pos hl
  have hlt := Nat.mod_lt c hqpos
  -- the addresses stay in the entry of the level above
  have hsame : (g.size (l + 1) * c + x) / g.size l = g.size (l + 1) * c / g.size l := by
    rw [hq, ← Nat.div_div_eq_div_mul, ← Nat.div_div_eq_div_mul, Nat.mul_add_div hpos,
      Nat.mul_div_cancel_left _ hpos]
    have hxq : x / g.size (l + 1) < q - c % q := Nat.div_lt_of_lt_mul (by rwa [Nat.mul_comm])
    have hsum : c % q + x / g.size (l + 1) < q := by
      rw [Nat.add_comm]
      exact Nat.add_lt_of_lt_sub hxq
    calc (c + x / g.size (l + 1)) / q
        = (q * (c / q) + (c % q + x / g.size (l + 1))) / q := by
          rw [← Nat.add_assoc, Nat.div_add_mod]
      _ = c / q := by rw [Nat.mul_add_div hqpos, Nat.div_eq_of_lt hsum, Nat.add_zero]
  rw [pos, pos, hsame]

theorem fanout_mul_size_dvd_span (hl : l < g.depth) : g.fanout l * g.size l ∣ g.span := by
  cases l with
  | zero => exact (count_mul_size hl).dvd
  | succ l =>
      rw [fanout, Nat.div_mul_cancel (g.size_dvd l hl)]
      exact size_dvd_span (Nat.lt_of_succ_lt hl)

theorem fanout_mul_size_dvd_size (hl : l < g.depth) (hi : i < l) :
    g.fanout l * g.size l ∣ g.size i := by
  obtain ⟨l, rfl⟩ : ∃ k, l = k + 1 := ⟨l - 1, by omega⟩
  rw [fanout, Nat.div_mul_cancel (g.size_dvd l hl)]
  exact size_dvd_of_le (Nat.lt_of_succ_lt hl) (Nat.le_of_lt_succ hi)

theorem index_add_size (h : g.index l a + 1 < g.fanout l) :
    g.index l (a + g.size l) = g.index l a + 1 := by
  rw [index] at h ⊢
  rw [index, Nat.add_div_right _ (g.size_pos l), ← Nat.mod_add_mod, Nat.mod_eq_of_lt h]

theorem div_add_size (h : g.index l a + 1 < g.fanout l) :
    (a + g.size l) / (g.fanout l * g.size l) = a / (g.fanout l * g.size l) := by
  have hfan : 0 < g.fanout l := (Nat.zero_le _).trans_lt h
  have hmod := Nat.div_add_mod (a / g.size l) (g.fanout l)
  rw [Nat.mul_comm, ← Nat.div_div_eq_div_mul, ← Nat.div_div_eq_div_mul,
    Nat.add_div_right _ (g.size_pos l), ← hmod, Nat.add_assoc, Nat.mul_add_div hfan,
    Nat.mul_add_div hfan, Nat.div_eq_of_lt (Nat.mod_lt _ hfan)]
  exact congrArg _ (Nat.div_eq_of_lt h)

theorem div_eq_of_dvd_of_div_eq {c d : ℕ} (hdvd : c ∣ d) (h : a / c = b / c) : a / d = b / d := by
  obtain ⟨q, rfl⟩ := hdvd
  rw [← Nat.div_div_eq_div_mul, ← Nat.div_div_eq_div_mul, h]

theorem pos_add_size (hl : l < g.depth) (hi : i < l) (h : g.index l a + 1 < g.fanout l) :
    g.pos i (a + g.size l) = g.pos i a := by
  rw [pos, pos, div_eq_of_dvd_of_div_eq (fanout_mul_size_dvd_size hl hi) (div_add_size h)]

theorem div_span_add_size (hl : l < g.depth) (h : g.index l a + 1 < g.fanout l) :
    (a + g.size l) / g.span = a / g.span :=
  div_eq_of_dvd_of_div_eq (fanout_mul_size_dvd_span hl) (div_add_size h)

end Shape

/-! ## Walks -/

section Walk

variable (g : Shape) (tab : ℕ → ℕ → Bool)

/-- The entries for the address above level `l` are tables. -/
def Path (l a : ℕ) : Prop := ∀ i < l, tab i (g.pos i a) = true

/-- The walk for the address stops at level `l`. -/
structure Stops (l a : ℕ) : Prop where
  lt_depth : l < g.depth
  path : Path g tab l a
  not_table : tab l (g.pos l a) = false

def Closed : Prop :=
  ∀ a, Path g tab (g.depth - 1) a → tab (g.depth - 1) (g.pos (g.depth - 1) a) = false

/-- The level at which a walk that has come to level `l` stops, with so many levels below. -/
def stopFrom (a : ℕ) : ℕ → ℕ → ℕ
  | 0, l => l
  | n + 1, l => if tab l (g.pos l a) then stopFrom a n (l + 1) else l

def stop (a : ℕ) : ℕ := stopFrom g tab a (g.depth - 1) 0

instance (l a : ℕ) : Decidable (Path g tab l a) :=
  inferInstanceAs (Decidable (∀ i < l, tab i (g.pos i a) = true))

variable {g tab} {tab' : ℕ → ℕ → Bool} {i l l' a b : ℕ}

theorem path_zero (a : ℕ) : Path g tab 0 a := fun _ hi => absurd hi (Nat.not_lt_zero _)

theorem Path.mono (h : Path g tab l a) (hi : i ≤ l) : Path g tab i a :=
  fun j hj => h j (hj.trans_le hi)

theorem path_succ_iff : Path g tab (l + 1) a ↔ Path g tab l a ∧ tab l (g.pos l a) = true := by
  constructor
  · intro h
    exact ⟨h.mono (Nat.le_succ l), h l (Nat.lt_succ_self l)⟩
  · rintro ⟨hpath, htab⟩ i hi
    rcases Nat.lt_succ_iff_lt_or_eq.mp hi with hlt | rfl
    · exact hpath i hlt
    · exact htab

theorem Path.congr (h : Path g tab l a) (heq : ∀ i < l, tab' i (g.pos i b) = tab i (g.pos i a)) :
    Path g tab' l b := by
  intro i hi
  rw [heq i hi]
  exact h i hi

theorem Stops.congr (h : Stops g tab l a)
    (heq : ∀ i ≤ l, tab' i (g.pos i b) = tab i (g.pos i a)) : Stops g tab' l b :=
  ⟨h.lt_depth, h.path.congr fun i hi => heq i hi.le, by rw [heq l le_rfl, h.not_table]⟩

theorem Stops.le_of_path (h : Stops g tab l a) (hpath : Path g tab l' a) : l' ≤ l := by
  by_contra hlt
  rw [not_le] at hlt
  have htab := hpath l hlt
  rw [h.not_table] at htab
  cases htab

theorem Stops.unique (h : Stops g tab l a) (h' : Stops g tab l' a) : l = l' :=
  le_antisymm (h'.le_of_path h.path) (h.le_of_path h'.path)

theorem stopFrom_spec (a : ℕ) (n : ℕ) {l : ℕ} (hn : l + n + 1 = g.depth)
    (hclosed : Closed g tab) (hpath : Path g tab l a) : Stops g tab (stopFrom g tab a n l) a := by
  induction n generalizing l with
  | zero =>
      obtain rfl : l = g.depth - 1 := by omega
      exact ⟨Nat.lt_of_succ_le hn.le, hpath, hclosed a hpath⟩
  | succ n ih =>
      rw [stopFrom]
      split_ifs with htab
      · exact ih (by omega) (path_succ_iff.mpr ⟨hpath, htab⟩)
      · exact ⟨by omega, hpath, Bool.eq_false_iff.mpr htab⟩

theorem stops_stop (hclosed : Closed g tab) (a : ℕ) : Stops g tab (stop g tab a) a := by
  have hdepth := g.depth_pos
  rw [stop]
  exact stopFrom_spec a (g.depth - 1) (by omega) hclosed (path_zero a)

theorem Stops.stop_eq (h : Stops g tab l a) (hclosed : Closed g tab) : stop g tab a = l :=
  (stops_stop hclosed a).unique h

end Walk

/-! ## Changes below an entry -/

section AgreeOff

variable {α β : Type*} (g : Shape)

/-- Two trees have the same entries outside of that of level `l` for the address `a` and of the
entries below it. -/
def AgreeOff (t t' : ℕ → ℕ → α) (l a : ℕ) : Prop :=
  ∀ i < g.depth, ∀ b, i < l ∨ g.pos l b ≠ g.pos l a → t' i (g.pos i b) = t i (g.pos i b)

variable {g} {t t' t'' : ℕ → ℕ → α} {tab tab' : ℕ → ℕ → Bool} {i l a b : ℕ}

theorem AgreeOff.refl (l a : ℕ) : AgreeOff g t t l a := fun _ _ _ _ => rfl

theorem AgreeOff.trans (h : AgreeOff g t t' l a) (h' : AgreeOff g t' t'' l a) :
    AgreeOff g t t'' l a := fun i hi b hb => (h' i hi b hb).trans (h i hi b hb)

theorem AgreeOff.map (h : AgreeOff g t t' l a) (f : ℕ → α → β) :
    AgreeOff g (fun i k => f i (t i k)) (fun i k => f i (t' i k)) l a :=
  fun i hi b hb => congrArg (f i) (h i hi b hb)

theorem AgreeOff.mono (h : AgreeOff g t t' l a) (hl : l < g.depth) (hi : i ≤ l) :
    AgreeOff g t t' i a := by
  intro j hj b hb
  refine h j hj b (hb.imp hi.trans_lt' fun hne heq => hne ?_)
  exact Shape.pos_eq_of_le hl hi heq

theorem AgreeOff.path_iff (h : AgreeOff g tab tab' l a) (hl : l < g.depth) (hi : i ≤ l) (b : ℕ) :
    Path g tab' i b ↔ Path g tab i b := by
  have heq : ∀ j < i, tab' j (g.pos j b) = tab j (g.pos j b) := fun j hj =>
    h j (hj.trans (hi.trans_lt hl)) b (.inl (hj.trans_le hi))
  exact ⟨fun hpath => hpath.congr fun j hj => (heq j hj).symm, fun hpath => hpath.congr heq⟩

theorem AgreeOff.stops_of_ne (h : AgreeOff g tab tab' l a) (hne : g.pos l b ≠ g.pos l a)
    (hstops : Stops g tab i b) : Stops g tab' i b :=
  hstops.congr fun j hj => h j (hj.trans_lt hstops.lt_depth) b (.inr hne)

/-- Where a walk into the entry stops below, the tables end if they do so elsewhere. -/
theorem AgreeOff.closed (h : AgreeOff g tab tab' l a) (hclosed : Closed g tab)
    (hstops : ∀ b, g.pos l b = g.pos l a → ∃ i, Stops g tab' i b) : Closed g tab' := by
  intro b hpath
  have hdepth := g.depth_pos
  have hlast : g.depth - 1 < g.depth := by omega
  by_cases hne : g.pos l b = g.pos l a
  · obtain ⟨i, hi⟩ := hstops b hne
    obtain rfl : i = g.depth - 1 :=
      le_antisymm (Nat.le_sub_one_of_lt hi.lt_depth) (hi.le_of_path hpath)
    exact hi.not_table
  · have heq : ∀ j < g.depth, tab' j (g.pos j b) = tab j (g.pos j b) := fun j hj =>
      h j hj b (.inr hne)
    rw [heq _ hlast]
    exact hclosed b (hpath.congr fun j hj => (heq j (hj.trans hlast)).symm)

end AgreeOff

end Radix
