import Mathlib.Tactic

/-! # Grouping a list in one pass

The elements of a list are taken in order. Each is dropped, opens a group of its
own, or joins every group that already has a member with a given key. When the
keys are distinct an element joins at most one group, and the groups hold every
element that is not dropped exactly once as soon as each key to join belongs to
an earlier element.
-/
namespace Pear.Grouping

inductive Choice (κ : Type*)
  | drop
  | fresh
  | join (k : κ)

variable {α κ : Type*} [DecidableEq κ] (key : α → κ)

def hasKey (k : κ) (l : List α) : Bool := l.any (fun y => key y = k)

def attach (groups : List (List α)) (k : κ) (x : α) : List (List α) :=
  groups.map (fun l => if hasKey key k l then l ++ [x] else l)

def put (groups : List (List α)) (x : α) : Choice κ → List (List α)
  | .drop => groups
  | .fresh => groups ++ [[x]]
  | .join k => attach key groups k x

variable (choose : α → Choice κ)

def group (l : List α) : List (List α) := l.foldl (fun g x => put key g x (choose x)) []

/-- The choice for an element leads to a place, given what is grouped already. -/
def Accepts (placed : List α) : Choice κ → Prop
  | .drop => False
  | .fresh => True
  | .join k => ∃ y ∈ placed, key y = k

theorem group_concat (l : List α) (x : α) :
    group key choose (l ++ [x]) = put key (group key choose l) x (choose x) := by
  simp only [group, List.foldl_append, List.foldl_cons, List.foldl_nil]

variable {key choose}

theorem flatten_attach_perm (groups : List (List α)) (k : κ) (x : α) :
    (attach key groups k x).flatten.Perm (groups.flatten ++
      List.replicate (groups.countP (hasKey key k)) x) := by
  induction groups with
  | nil => simp [attach]
  | cons l groups ih =>
    have ih' : (attach key groups k x).flatten.Perm _ := ih
    by_cases h : hasKey key k l = true
    · have hl : (attach key (l :: groups) k x).flatten = l ++ [x] ++ (attach key groups k x).flatten := by
        simp only [attach, List.map_cons, h, if_true, List.flatten_cons]
      rw [hl, List.countP_cons_of_pos h, List.replicate_succ', List.flatten_cons, List.append_assoc,
        List.append_assoc]
      refine List.Perm.append_left l ?_
      refine List.perm_append_comm.trans ?_
      exact (ih'.append_right [x]).trans (by rw [List.append_assoc])
    · have hl : (attach key (l :: groups) k x).flatten = l ++ (attach key groups k x).flatten := by
        simp only [attach, List.map_cons, h, Bool.false_eq_true, if_false, List.flatten_cons]
      rw [hl, List.countP_cons_of_neg h, List.flatten_cons, List.append_assoc]
      exact List.Perm.append_left l ih'

theorem countP_hasKey_le (groups : List (List α)) (k : κ) :
    groups.countP (hasKey key k) ≤ groups.flatten.countP (fun y => key y = k) := by
  induction groups with
  | nil => simp
  | cons l groups ih =>
    rw [List.flatten_cons, List.countP_append]
    by_cases h : hasKey key k l = true
    · have hl : 0 < l.countP (fun y => key y = k) := by
        obtain ⟨y,hy,hp⟩ := List.any_eq_true.mp h
        exact List.countP_pos_iff.mpr ⟨y,hy,hp⟩
      rw [List.countP_cons_of_pos h]
      omega
    · rw [List.countP_cons_of_neg h]
      omega

theorem countP_hasKey_le_one {groups : List (List α)} (hn : (groups.flatten.map key).Nodup) (k : κ) :
    groups.countP (hasKey key k) ≤ 1 := by
  have hc : groups.flatten.countP (fun y => key y = k) = (groups.flatten.map key).count k := by
    rw [List.count, List.countP_map]
    rfl
  calc groups.countP (hasKey key k)
      ≤ groups.flatten.countP (fun y => key y = k) := countP_hasKey_le groups k
    _ = (groups.flatten.map key).count k := hc
    _ ≤ 1 := List.nodup_iff_count_le_one.mp hn k

theorem countP_hasKey_pos {groups : List (List α)} {k : κ} :
    0 < groups.countP (hasKey key k) ↔ ∃ y ∈ groups.flatten, key y = k := by
  rw [List.countP_pos_iff]
  constructor
  · rintro ⟨l,hl,ha⟩
    obtain ⟨y,hy,hk⟩ := List.any_eq_true.mp ha
    exact ⟨y,List.mem_flatten.mpr ⟨l,hl,hy⟩,of_decide_eq_true hk⟩
  · rintro ⟨y,hy,hk⟩
    obtain ⟨l,hl,hyl⟩ := List.mem_flatten.mp hy
    exact ⟨l,hl,List.any_eq_true.mpr ⟨y,hyl,decide_eq_true hk⟩⟩

/-- One element adds at most itself, once, and only if its choice leads to a place. -/
theorem flatten_put_perm {groups : List (List α)} (hn : (groups.flatten.map key).Nodup) (x : α)
    (c : Choice κ) :
    (Accepts key groups.flatten c ∧ (put key groups x c).flatten.Perm (groups.flatten ++ [x])) ∨
      (¬ Accepts key groups.flatten c ∧ (put key groups x c).flatten.Perm groups.flatten) := by
  cases c with
  | drop => exact Or.inr ⟨id,List.Perm.refl _⟩
  | fresh =>
    refine Or.inl ⟨trivial,?_⟩
    rw [put, List.flatten_append]
    exact List.Perm.refl _
  | join k =>
    have hp : (attach key groups k x).flatten.Perm _ := flatten_attach_perm groups k x
    have hle := countP_hasKey_le_one hn k
    by_cases hk : ∃ y ∈ groups.flatten, key y = k
    · have hpos := countP_hasKey_pos.mpr hk
      have hone : groups.countP (hasKey key k) = 1 := by omega
      rw [hone] at hp
      exact Or.inl ⟨hk,hp⟩
    · have hzero : groups.countP (hasKey key k) = 0 := by
        by_contra hne
        exact hk (countP_hasKey_pos.mp (by omega))
      rw [hzero, List.replicate_zero, List.append_nil] at hp
      exact Or.inr ⟨hk,hp⟩

theorem mem_put {groups : List (List α)} (hn : (groups.flatten.map key).Nodup) (x y : α)
    (c : Choice κ) : y ∈ (put key groups x c).flatten ↔
      y ∈ groups.flatten ∨ y = x ∧ Accepts key groups.flatten c := by
  rcases flatten_put_perm hn x c with ⟨ha,hp⟩ | ⟨ha,hp⟩
  · rw [hp.mem_iff, List.mem_append, List.mem_singleton]
    exact or_congr_right ⟨fun h => ⟨h,ha⟩,fun h => h.1⟩
  · rw [hp.mem_iff]
    exact ⟨Or.inl,fun h => h.resolve_right (fun hx => ha hx.2)⟩

variable (choose) in
/-- Groups hold elements of the list only, under distinct keys. -/
theorem group_nodup {l : List α} (hn : (l.map key).Nodup) :
    ((group key choose l).flatten.map key).Nodup ∧ ∀ x ∈ (group key choose l).flatten, x ∈ l := by
  induction l using List.reverseRecOn with
  | nil => simp [group]
  | append_singleton l x ih =>
    rw [List.map_append, List.nodup_append] at hn
    obtain ⟨hl,_,hx⟩ := hn
    obtain ⟨hnodup,hsub⟩ := ih hl
    rw [group_concat]
    refine ⟨?_,?_⟩
    · rcases flatten_put_perm hnodup x (choose x) with ⟨_,hp⟩ | ⟨_,hp⟩
      · rw [(hp.map key).nodup_iff, List.map_append, List.nodup_append]
        refine ⟨hnodup,by simp,?_⟩
        intro a ha b hb
        obtain ⟨y,hy,rfl⟩ := List.mem_map.mp ha
        exact hx (key y) (List.mem_map_of_mem (hsub y hy)) b hb
      · rwa [(hp.map key).nodup_iff]
    · intro y hy
      rw [mem_put hnodup] at hy
      rcases hy with hy | ⟨rfl,_⟩
      · exact List.mem_append_left _ (hsub y hy)
      · exact List.mem_append_right _ (List.mem_singleton_self y)

theorem group_ne_nil (l : List α) : ∀ g ∈ group key choose l, g ≠ [] := by
  induction l using List.reverseRecOn with
  | nil => simp [group]
  | append_singleton l x ih =>
    intro g hg
    rw [group_concat] at hg
    cases hc : choose x with
    | drop =>
      rw [hc] at hg
      exact ih g hg
    | fresh =>
      rw [hc, put, List.mem_append, List.mem_singleton] at hg
      rcases hg with hg | rfl
      · exact ih g hg
      · exact List.cons_ne_nil x []
    | join k =>
      rw [hc, put, attach, List.mem_map] at hg
      obtain ⟨m,hm,rfl⟩ := hg
      split
      · simp
      · exact ih m hm

/-- Whether an element has a place is decided when it is taken. -/
theorem mem_group_iff {pre post : List α} {x : α} (hn : ((pre ++ x :: post).map key).Nodup) :
    x ∈ (group key choose (pre ++ x :: post)).flatten ↔
      Accepts key (group key choose pre).flatten (choose x) := by
  induction post using List.reverseRecOn with
  | nil =>
    have hpre : (pre.map key).Nodup := by
      rw [List.map_append] at hn
      exact hn.of_append_left
    obtain ⟨hnodup,hsub⟩ := group_nodup choose hpre
    have hx : x ∉ pre := by
      intro hm
      rw [List.map_append, List.nodup_append] at hn
      exact hn.2.2 (key x) (List.mem_map_of_mem hm) (key x) (by simp) rfl
    rw [group_concat, mem_put hnodup]
    exact ⟨fun h => (h.resolve_left (fun hm => hx (hsub x hm))).2,fun h => Or.inr ⟨rfl,h⟩⟩
  | append_singleton post y ih =>
    have hsplit : pre ++ x :: (post ++ [y]) = pre ++ x :: post ++ [y] := by simp
    rw [hsplit, List.map_append] at hn
    have hprev := hn.of_append_left
    have hne : x ≠ y := by
      rintro rfl
      rw [List.nodup_append] at hn
      exact hn.2.2 (key x) (List.mem_map_of_mem (by simp)) (key x) (by simp) rfl
    rw [hsplit, group_concat, mem_put (group_nodup choose hprev).1, ← ih hprev]
    exact ⟨fun h => h.resolve_right (fun hx => hne hx.1),Or.inl⟩

variable (choose) in
/-- Nothing but the dropped elements is lost exactly when each key to join belongs
to an earlier element of the list. -/
theorem group_complete_iff {l : List α} (hn : (l.map key).Nodup)
    (hdrop : ∀ x ∈ l, ∀ y ∈ l, choose x = .join (key y) → choose y ≠ .drop) :
    (∀ x ∈ l, choose x ≠ .drop → x ∈ (group key choose l).flatten) ↔
    ∀ pre x post, l = pre ++ x :: post → ∀ k, choose x = .join k → ∃ y ∈ pre, key y = k := by
  constructor
  · intro h pre x post hl k hk
    have hx := h x (by simp [hl]) (by simp [hk])
    subst hl
    rw [mem_group_iff hn, hk] at hx
    obtain ⟨y,hy,hkey⟩ := hx
    have hpre : (pre.map key).Nodup := by
      rw [List.map_append] at hn
      exact hn.of_append_left
    exact ⟨y,(group_nodup choose hpre).2 y hy,hkey⟩
  · intro h
    -- induction on the prefix already taken
    have hpre : ∀ pre post, l = pre ++ post → ∀ x ∈ pre, choose x ≠ .drop →
        x ∈ (group key choose pre).flatten := by
      intro pre
      induction pre using List.reverseRecOn with
      | nil => simp
      | append_singleton pre y ih =>
        intro post hl x hx hne
        have hl' : l = pre ++ y :: post := by simpa using hl
        have hnp : ((pre ++ [y]).map key).Nodup := by
          rw [hl, List.map_append] at hn
          exact hn.of_append_left
        have hnodup : ((group key choose pre).flatten.map key).Nodup := by
          rw [List.map_append] at hnp
          exact (group_nodup choose hnp.of_append_left).1
        rw [group_concat, mem_put hnodup]
        rcases List.mem_append.mp hx with hx | hx
        · exact Or.inl (ih (y :: post) hl' x hx hne)
        · obtain rfl := List.mem_singleton.mp hx
          refine Or.inr ⟨rfl,?_⟩
          cases hc : choose x with
          | drop => exact absurd hc hne
          | fresh => trivial
          | join k =>
            obtain ⟨z,hz,rfl⟩ := h pre x post hl' k hc
            have hzl : z ∈ l := by simp [hl', hz]
            exact ⟨z,ih (x :: post) hl' z hz (hdrop x (by simp [hl']) z hzl hc),rfl⟩
    intro x hx hne
    exact hpre l [] (by simp) x hx hne

/-- A member that does not open its group joined an earlier member. -/
theorem group_member {l : List α} {g : List α} (hg : g ∈ group key choose l) {i : ℕ} {x : α}
    (hi : 0 < i) (hx : g[i]? = some x) :
    x ∈ l ∧ ∃ y ∈ g.take i, choose x = .join (key y) := by
  induction l using List.reverseRecOn generalizing g with
  | nil => simp [group] at hg
  | append_singleton l z ih =>
    rw [group_concat] at hg
    have hold : ∀ m, m ∈ group key choose l → m[i]? = some x →
        x ∈ l ++ [z] ∧ ∃ y ∈ m.take i, choose x = .join (key y) := by
      intro m hm hmx
      obtain ⟨hl,hj⟩ := ih hm hmx
      exact ⟨List.mem_append_left _ hl,hj⟩
    cases hc : choose z with
    | drop =>
      rw [hc] at hg
      exact hold g hg hx
    | fresh =>
      rw [hc, put, List.mem_append, List.mem_singleton] at hg
      rcases hg with hg | rfl
      · exact hold g hg hx
      · rw [List.getElem?_eq_none (by rw [List.length_singleton]; exact hi)] at hx
        cases hx
    | join k =>
      rw [hc, put, attach, List.mem_map] at hg
      obtain ⟨m,hm,rfl⟩ := hg
      by_cases ha : hasKey key k m = true
      · rw [if_pos ha] at hx ⊢
        by_cases hlt : i < m.length
        · rw [List.getElem?_append_left hlt] at hx
          rw [List.take_append_of_le_length hlt.le]
          exact hold m hm hx
        · rw [List.getElem?_append_right (by omega)] at hx
          obtain ⟨hz,hxz⟩ := List.getElem?_eq_some_iff.mp hx
          have hend : i = m.length := by
            rw [List.length_singleton] at hz
            omega
          obtain rfl : z = x := by simpa using hxz
          obtain ⟨y,hy,hk⟩ := List.any_eq_true.mp ha
          refine ⟨by simp,y,?_,?_⟩
          · rw [hend, List.take_left']
            · exact hy
            · rfl
          · rw [hc, of_decide_eq_true hk]
      · rw [if_neg ha] at hx ⊢
        exact hold m hm hx

end Pear.Grouping
