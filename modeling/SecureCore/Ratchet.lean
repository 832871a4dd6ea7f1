import Mathlib.Data.List.Infix
import Mathlib.Data.Set.Basic
import Mathlib.Tactic

/-! A root key that is rolled forward and mixed with shared secrets. Each key has a
lineage: the origin it started from and the links since. The steps are one-way, so
what can be deduced from a set of keys is what extends their lineages, by rolls and
by secrets that are known.

A ring holds the root in force and at most one pending root, which was mixed from
the root in force when it was installed. -/

namespace SecureCore.Ratchet

variable {ω κ μ : Type}

inductive Link (κ : Type) where
  | roll
  | mix (secret : κ)
  deriving DecidableEq, Repr

def secretsIn : List (Link κ) → List κ
  | [] => []
  | .roll :: links => secretsIn links
  | .mix secret :: links => secret :: secretsIn links

@[simp] theorem secretsIn_append (links more : List (Link κ)) :
    secretsIn (links ++ more) = secretsIn links ++ secretsIn more := by
  induction links with
  | nil => rfl
  | cons link links ih =>
    cases link with
    | roll => exact ih
    | mix secret => exact congrArg (secret :: ·) ih

@[ext] structure Lineage (ω κ : Type) where
  origin : ω
  links : List (Link κ)
  deriving DecidableEq, Repr

namespace Lineage

variable {a b d e : Lineage ω κ} {link : Link κ}

def extend (d : Lineage ω κ) (links : List (Link κ)) : Lineage ω κ :=
  { d with links := d.links ++ links }

def next (d : Lineage ω κ) (link : Link κ) : Lineage ω κ := d.extend [link]

@[simp] theorem extend_nil (d : Lineage ω κ) : d.extend [] = d :=
  Lineage.ext rfl (List.append_nil _)

@[simp] theorem extend_extend (d : Lineage ω κ) (links more : List (Link κ)) :
    (d.extend links).extend more = d.extend (links ++ more) :=
  Lineage.ext rfl (List.append_assoc _ _ _)

theorem extend_next (d : Lineage ω κ) (links : List (Link κ)) (link : Link κ) :
    (d.extend links).next link = d.extend (links ++ [link]) := extend_extend d links [link]

theorem extend_inj {links more : List (Link κ)} (h : d.extend links = d.extend more) :
    links = more :=
  List.append_cancel_left (congrArg Lineage.links h)

instance : PartialOrder (Lineage ω κ) where
  le d e := d.origin = e.origin ∧ d.links <+: e.links
  le_refl d := ⟨rfl, List.prefix_rfl⟩
  le_trans _ _ _ h h' := ⟨h.1.trans h'.1, h.2.trans h'.2⟩
  le_antisymm _ _ h h' := Lineage.ext h.1 (h.2.eq_of_length_le h'.2.length_le)

theorem le_iff_extend : d ≤ e ↔ ∃ links, e = d.extend links := by
  constructor
  · rintro ⟨horigin, links, hlinks⟩
    exact ⟨links, Lineage.ext horigin.symm hlinks.symm⟩
  · rintro ⟨links, rfl⟩
    exact ⟨rfl, List.prefix_append _ _⟩

theorem le_next (d : Lineage ω κ) (link : Link κ) : d ≤ d.next link :=
  le_iff_extend.mpr ⟨[link], rfl⟩

theorem le_next_iff : d ≤ e.next link ↔ d ≤ e ∨ d = e.next link := by
  constructor
  · rintro ⟨horigin, hlinks⟩
    rcases List.prefix_concat_iff.mp hlinks with heq | hshorter
    · exact Or.inr (Lineage.ext horigin heq)
    · exact Or.inl ⟨horigin, hshorter⟩
  · rintro (h | rfl)
    · exact h.trans (le_next e link)
    · exact le_refl _

theorem not_next_le (d : Lineage ω κ) (link : Link κ) : ¬ d.next link ≤ d := by
  intro h
  have hlength := h.2.length_le
  simp [next, extend] at hlength

theorem next_inj {link' : Link κ} (h : d.next link = e.next link') : d = e ∧ link = link' := by
  have horigin := congrArg Lineage.origin h
  have hlinks := congrArg Lineage.links h
  obtain ⟨hinit, hlast⟩ := List.append_inj' hlinks rfl
  exact ⟨Lineage.ext horigin hinit, List.singleton_inj.mp hlast⟩

theorem comparable_of_le (ha : a ≤ d) (hb : b ≤ d) : a ≤ b ∨ b ≤ a := by
  rcases List.prefix_or_prefix_of_prefix ha.2 hb.2 with h | h
  · exact Or.inl ⟨ha.1.trans hb.1.symm, h⟩
  · exact Or.inr ⟨hb.1.trans ha.1.symm, h⟩

theorem eq_origin_or_next (d : Lineage ω κ) :
    d = ⟨d.origin, []⟩ ∨ ∃ e link, d = Lineage.next e link := by
  obtain ⟨origin, links⟩ := d
  rcases List.eq_nil_or_concat' links with rfl | ⟨init, last, rfl⟩
  · exact Or.inl rfl
  · exact Or.inr ⟨⟨origin, init⟩, last, rfl⟩

section Key

variable {K : Type} (base : ω → K) (step : Link κ → K → K)

def key (d : Lineage ω κ) : K := d.links.foldl (fun key link => step link key) (base d.origin)

@[simp] theorem key_next (d : Lineage ω κ) (link : Link κ) :
    (d.next link).key base step = step link (d.key base step) := by
  simp [key, next, extend]

variable {base step}

theorem key_injOn (good : ω → Prop) (start : ∀ o o', good o → good o' → base o = base o' → o = o')
    (apart : ∀ o link key, good o → step link key ≠ base o)
    (inj : ∀ link link' key key', step link key = step link' key' → link = link' ∧ key = key')
    (hd : good d.origin) (he : good e.origin) (h : d.key base step = e.key base step) : d = e := by
  -- Both lineages are taken apart from their last link on.
  obtain ⟨origin, links⟩ := d
  induction links using List.reverseRecOn generalizing e with
  | nil =>
    rcases eq_origin_or_next e with he' | ⟨e, link, rfl⟩
    · rw [he'] at h ⊢
      exact Lineage.ext (start _ _ hd he h) rfl
    · rw [key_next] at h
      exact absurd h.symm (apart _ _ _ hd)
  | append_singleton links last ih =>
    have hlast : (⟨origin, links ++ [last]⟩ : Lineage ω κ) = .next ⟨origin, links⟩ last := rfl
    rw [hlast] at h ⊢
    rcases eq_origin_or_next e with he' | ⟨e, link, rfl⟩
    · rw [he', key_next] at h
      exact absurd h (apart _ _ _ he)
    · rw [key_next, key_next] at h
      obtain ⟨rfl, hkey⟩ := inj _ _ _ _ h
      rw [ih (e := e) he hd hkey]

end Key

end Lineage

/-- What can be known: a root, or a key made from a root to be used. -/
inductive Item (ω κ μ : Type) where
  | root (d : Lineage ω κ)
  | leaf (d : Lineage ω κ) (label : μ)

/-- What follows from known items when these secrets are known as well. -/
inductive Deducible (secrets : Set κ) (known : Set (Item ω κ μ)) : Item ω κ μ → Prop where
  | known {item : Item ω κ μ} (h : item ∈ known) : Deducible secrets known item
  | roll {d : Lineage ω κ} (h : Deducible secrets known (.root d)) :
      Deducible secrets known (.root (d.next .roll))
  | mix {d : Lineage ω κ} {secret : κ} (h : Deducible secrets known (.root d))
      (shared : secret ∈ secrets) : Deducible secrets known (.root (d.next (.mix secret)))
  | leaf {d : Lineage ω κ} (h : Deducible secrets known (.root d)) (label : μ) :
      Deducible secrets known (.leaf d label)

namespace Deducible

variable {secrets : Set κ} {known : Set (Item ω κ μ)} {d e : Lineage ω κ}

theorem extend (h : Deducible secrets known (.root d)) {links : List (Link κ)}
    (shared : ∀ secret ∈ secretsIn links, secret ∈ secrets) :
    Deducible secrets known (.root (d.extend links)) := by
  induction links using List.reverseRecOn with
  | nil => rwa [Lineage.extend_nil]
  | append_singleton links link ih =>
    rw [secretsIn_append] at shared
    have hrest := ih fun secret hmem => shared secret (List.mem_append_left _ hmem)
    rw [← Lineage.extend_extend]
    cases link with
    | roll => exact .roll hrest
    | mix secret => exact .mix hrest (shared secret (List.mem_append_right _ List.mem_cons_self))

theorem origin {item : Item ω κ μ} (h : Deducible secrets known item) :
    item ∈ known ∨ ∃ d links, .root d ∈ known ∧
      (∀ secret ∈ secretsIn links, secret ∈ secrets) ∧
      (item = .root (d.extend links) ∨ ∃ label, item = .leaf (d.extend links) label) := by
  -- Extensions of known roots by known secrets are closed under every rule.
  have reached : ∀ {item}, Deducible secrets known item → ∀ e, item = .root e →
      ∃ d links, .root d ∈ known ∧ (∀ secret ∈ secretsIn links, secret ∈ secrets) ∧
        e = d.extend links := by
    intro item h
    induction h with
    | known h =>
      rintro e rfl
      exact ⟨e, [], h, by simp [secretsIn], (Lineage.extend_nil e).symm⟩
    | roll h ih =>
      rintro e ⟨⟩
      obtain ⟨d, links, hd, hshared, rfl⟩ := ih _ rfl
      refine ⟨d, links ++ [.roll], hd, ?_, Lineage.extend_next d links _⟩
      simpa [secretsIn] using hshared
    | @mix d secret h shared ih =>
      rintro e ⟨⟩
      obtain ⟨d, links, hd, hshared, rfl⟩ := ih _ rfl
      refine ⟨d, links ++ [.mix secret], hd, ?_, Lineage.extend_next d links _⟩
      intro other hmem
      rw [secretsIn_append, List.mem_append] at hmem
      rcases hmem with hmem | hmem
      · exact hshared other hmem
      · rwa [List.mem_singleton.mp hmem]
    | leaf h label ih => rintro e ⟨⟩
  cases h with
  | known h => exact Or.inl h
  | roll h =>
    obtain ⟨d, links, hd, hshared, he⟩ := reached (.roll h) _ rfl
    exact Or.inr ⟨d, links, hd, hshared, Or.inl (congrArg Item.root he)⟩
  | mix h shared =>
    obtain ⟨d, links, hd, hshared, he⟩ := reached (.mix h shared) _ rfl
    exact Or.inr ⟨d, links, hd, hshared, Or.inl (congrArg Item.root he)⟩
  | leaf h label =>
    obtain ⟨d, links, hd, hshared, he⟩ := reached h _ rfl
    exact Or.inr ⟨d, links, hd, hshared, Or.inr ⟨label, congrArg (Item.leaf · label) he⟩⟩

theorem root_iff : Deducible secrets known (.root e) ↔ ∃ d links, .root d ∈ known ∧
    (∀ secret ∈ secretsIn links, secret ∈ secrets) ∧ e = d.extend links := by
  constructor
  · intro h
    rcases h.origin with hmem | ⟨d, links, hd, hshared, he | ⟨label, he⟩⟩
    · exact ⟨e, [], hmem, by simp [secretsIn], (Lineage.extend_nil e).symm⟩
    · exact ⟨d, links, hd, hshared, Item.root.inj he⟩
    · cases he
  · rintro ⟨d, links, hd, hshared, rfl⟩
    exact (Deducible.known hd).extend hshared

theorem leaf_iff {label : μ} : Deducible secrets known (.leaf e label) ↔
    .leaf e label ∈ known ∨ Deducible secrets known (.root e) := by
  constructor
  · intro h
    cases h with
    | known h => exact Or.inl h
    | leaf h => exact Or.inr h
  · rintro (h | h)
    · exact .known h
    · exact .leaf h label

end Deducible

structure Ring (ω κ : Type) where
  curr : Lineage ω κ
  pend : Option (Lineage ω κ)
  /-- The roots that were in force before. -/
  past : List (Lineage ω κ)
  deriving DecidableEq, Repr

inductive Move (ω κ : Type) where
  | roll
  | install (secret : κ)
  | promote
  | reset (origin : ω)
  deriving DecidableEq, Repr

namespace Ring

def start (origin : ω) : Ring ω κ := ⟨⟨origin, []⟩, none, []⟩

def move (r : Ring ω κ) : Move ω κ → Ring ω κ
  | .roll => ⟨r.curr.next .roll, r.pend, r.past ++ [r.curr]⟩
  | .install secret => { r with pend := some (r.curr.next (.mix secret)) }
  | .promote =>
    match r.pend with
    | none => r
    | some d => ⟨d, none, r.past ++ [r.curr]⟩
  | .reset origin => ⟨⟨origin, []⟩, r.pend, r.past ++ [r.curr]⟩

def after (r : Ring ω κ) (moves : List (Move ω κ)) : Ring ω κ := moves.foldl move r

def held (r : Ring ω κ) : Set (Lineage ω κ) := { d | d = r.curr ∨ r.pend = some d }

def exposed (r : Ring ω κ) (leaves : Set (Lineage ω κ × μ)) : Set (Item ω κ μ) :=
  { item | (∃ d ∈ r.held, item = .root d) ∨ ∃ leaf ∈ leaves, item = .leaf leaf.1 leaf.2 }

def Unused (r : Ring ω κ) (origin : ω) : Prop := ∀ d ∈ r.curr :: r.past, d.origin ≠ origin

/-- Each new origin of the moves is unused when its turn comes. -/
def NewOrigins : Ring ω κ → List (Move ω κ) → Prop
  | _, [] => True
  | r, m :: moves => (∀ origin, m = .reset origin → r.Unused origin) ∧ (r.move m).NewOrigins moves

variable {r : Ring ω κ} {m : Move ω κ} {moves more : List (Move ω κ)}

theorem after_append : r.after (moves ++ more) = (r.after moves).after more := by
  simp [after]

theorem newOrigins_append : r.NewOrigins (moves ++ more) ↔
    r.NewOrigins moves ∧ (r.after moves).NewOrigins more := by
  induction moves generalizing r with
  | nil => simp [NewOrigins, after]
  | cons m moves ih =>
    rw [List.cons_append, NewOrigins, NewOrigins, ih, and_assoc]
    rfl

section Onward

/-- No stored root leads to a root of the past. -/
structure Onward (r : Ring ω κ) : Prop where
  curr : ∀ h ∈ r.past, ¬ r.curr ≤ h
  pend : ∀ d, r.pend = some d → ∀ h ∈ r.curr :: r.past, ¬ d ≤ h
  mixed : ∀ d, r.pend = some d → ∃ base secret, d = Lineage.next base (.mix secret)

theorem onward_start (origin : ω) : (start origin : Ring ω κ).Onward where
  curr := by simp [start]
  pend := by simp [start]
  mixed := by simp [start]

theorem forall_past_concat {d : Lineage ω κ} (hcurr : ¬ d ≤ r.curr)
    (hpast : ∀ h ∈ r.past, ¬ d ≤ h) : ∀ h ∈ r.past ++ [r.curr], ¬ d ≤ h := by
  intro h hmem
  rcases List.mem_append.mp hmem with hmem | hmem
  · exact hpast h hmem
  · rwa [List.mem_singleton.mp hmem]

theorem Onward.move (h : r.Onward) (unused : ∀ origin, m = .reset origin → r.Unused origin) :
    (r.move m).Onward := by
  cases m with
  | roll =>
    refine ⟨forall_past_concat (Lineage.not_next_le _ _) fun e he hle =>
      h.curr e he ((Lineage.le_next _ _).trans hle), fun d hd e he hle => ?_, h.mixed⟩
    have hpend := h.pend d hd
    rcases List.mem_cons.mp he with rfl | he
    · rcases Lineage.le_next_iff.mp hle with hle | rfl
      · exact hpend _ List.mem_cons_self hle
      · -- A pending root ends in a secret, a rolled one does not.
        obtain ⟨base, secret, hmixed⟩ := h.mixed _ hd
        cases (Lineage.next_inj hmixed).2
    · exact forall_past_concat (hpend _ List.mem_cons_self)
        (fun e he => hpend e (List.mem_cons_of_mem _ he)) e he hle
  | install secret =>
    refine ⟨h.curr, ?_, ?_⟩
    · rintro d ⟨⟩ e he hle
      rcases List.mem_cons.mp he with rfl | he
      · exact Lineage.not_next_le _ _ hle
      · exact h.curr e he ((Lineage.le_next _ _).trans hle)
    · rintro d ⟨⟩
      exact ⟨r.curr, secret, rfl⟩
  | promote =>
    cases hp : r.pend with
    | none => simpa [Ring.move, hp] using h
    | some d =>
      have hpend := h.pend d hp
      simp only [Ring.move, hp]
      exact ⟨forall_past_concat (hpend _ List.mem_cons_self) fun e he =>
        hpend e (List.mem_cons_of_mem _ he), by simp, by simp⟩
  | reset origin =>
    have hunused := unused origin rfl
    refine ⟨forall_past_concat (fun hle => ?_) fun e he hle => ?_, fun d hd e he hle => ?_, h.mixed⟩
    · exact hunused _ List.mem_cons_self hle.1.symm
    · exact hunused e (List.mem_cons_of_mem _ he) hle.1.symm
    · have hpend := h.pend d hd
      rcases List.mem_cons.mp he with rfl | he
      · -- Nothing but an origin leads to an origin.
        obtain ⟨base, secret, rfl⟩ := h.mixed _ hd
        have hlength : (base.next (.mix secret)).links.length ≤ 0 := hle.2.length_le
        simp [Lineage.next, Lineage.extend] at hlength
      · exact forall_past_concat (hpend _ List.mem_cons_self)
          (fun e he => hpend e (List.mem_cons_of_mem _ he)) e he hle

theorem Onward.after (h : r.Onward) (new : r.NewOrigins moves) : (r.after moves).Onward := by
  induction moves generalizing r with
  | nil => exact h
  | cons m moves ih => exact ih (h.move new.1) new.2

theorem Onward.ne_of_held (h : r.Onward) {d e : Lineage ω κ} (held : d ∈ r.held)
    (left : e ∈ r.past) : ¬ d ≤ e := by
  rcases held with rfl | hpend
  · exact h.curr e left
  · exact h.pend d hpend e (List.mem_cons_of_mem _ left)

theorem Onward.not_deducible (h : r.Onward) {e : Lineage ω κ} (left : e ∈ r.past)
    (leaves : Set (Lineage ω κ × μ)) :
    ¬ Deducible Set.univ (r.exposed leaves) (.root e) := by
  rw [Deducible.root_iff]
  rintro ⟨d, links, hknown, -, rfl⟩
  rcases hknown with ⟨d', held, ⟨⟩⟩ | ⟨leaf, -, hleaf⟩
  · exact h.ne_of_held held left (Lineage.le_iff_extend.mpr ⟨links, rfl⟩)
  · cases hleaf

end Onward

theorem past_subset_move (m : Move ω κ) : r.past ⊆ (r.move m).past := by
  cases m with
  | roll => exact List.subset_append_left _ _
  | install secret => exact List.Subset.refl _
  | promote =>
    rw [move]
    split
    · exact List.Subset.refl _
    · exact List.subset_append_left _ _
  | reset origin => exact List.subset_append_left _ _

theorem past_subset_after (moves : List (Move ω κ)) : r.past ⊆ (r.after moves).past := by
  induction moves generalizing r with
  | nil => exact List.Subset.refl _
  | cons m moves ih => exact List.Subset.trans (past_subset_move m) ih

theorem curr_after (moves : List (Move ω κ)) :
    (r.after moves).curr = r.curr ∨ r.curr ∈ (r.after moves).past := by
  induction moves generalizing r with
  | nil => exact Or.inl rfl
  | cons m moves ih =>
    have hstep : (r.move m).curr = r.curr ∨ r.curr ∈ (r.move m).past := by
      cases m with
      | roll => exact Or.inr (by simp [move])
      | install secret => exact Or.inl rfl
      | promote =>
        rw [move]
        split
        · exact Or.inl rfl
        · exact Or.inr (by simp)
      | reset origin => exact Or.inr (by simp [move])
    rcases hstep with hsame | hleft
    · rw [← hsame]
      exact ih
    · exact Or.inr (past_subset_after moves hleft)

theorem origin_after {good : ω → Prop} (base : ∀ d, d ∈ r.curr :: r.past ∨ r.pend = some d →
    good d.origin) (resets : ∀ origin, .reset origin ∈ moves → good origin) :
    ∀ d, d ∈ (r.after moves).curr :: (r.after moves).past ∨ (r.after moves).pend = some d →
      good d.origin := by
  induction moves generalizing r with
  | nil => exact base
  | cons m moves ih =>
    have hcurr := base r.curr (Or.inl List.mem_cons_self)
    have hpast : ∀ d ∈ r.past ++ [r.curr], good d.origin := by
      intro d hd
      rcases List.mem_append.mp hd with hd | hd
      · exact base d (Or.inl (List.mem_cons_of_mem _ hd))
      · rwa [List.mem_singleton.mp hd]
    refine ih ?_ fun origin horigin => resets origin (List.mem_cons_of_mem _ horigin)
    cases m with
    | roll =>
      rintro d (hd | hd)
      · rcases List.mem_cons.mp hd with rfl | hd
        · exact hcurr
        · exact hpast d hd
      · exact base d (Or.inr hd)
    | install secret =>
      rintro d (hd | hd)
      · exact base d (Or.inl hd)
      · cases hd
        exact hcurr
    | promote =>
      cases hp : r.pend with
      | none => simpa [move, hp] using base
      | some e =>
        simp only [move, hp]
        rintro d (hd | hd)
        · rcases List.mem_cons.mp hd with rfl | hd
          · exact base _ (Or.inr hp)
          · exact hpast d hd
        · cases hd
    | reset origin =>
      rintro d (hd | hd)
      · rcases List.mem_cons.mp hd with rfl | hd
        · exact resets origin List.mem_cons_self
        · exact hpast d hd
      · exact base d (Or.inr hd)

def Continues (moves : List (Move ω κ)) : Prop := ∀ m ∈ moves, ∀ origin, m ≠ .reset origin

theorem newOrigins_of_continues (continues : Continues moves) : r.NewOrigins moves := by
  induction moves generalizing r with
  | nil => trivial
  | cons m moves ih =>
    refine ⟨fun origin h => absurd h (continues m List.mem_cons_self origin), ih fun m hm => ?_⟩
    exact continues m (List.mem_cons_of_mem _ hm)

theorem held_move (continues : ∀ origin, m ≠ .reset origin) {e : Lineage ω κ}
    (held : e ∈ (r.move m).held) : ∃ d ∈ r.held, d ≤ e := by
  cases m with
  | roll =>
    rcases held with rfl | hpend
    · exact ⟨r.curr, Or.inl rfl, Lineage.le_next _ _⟩
    · exact ⟨e, Or.inr hpend, le_refl e⟩
  | install secret =>
    rcases held with rfl | hpend
    · exact ⟨r.curr, Or.inl rfl, le_refl _⟩
    · cases hpend
      exact ⟨r.curr, Or.inl rfl, Lineage.le_next _ _⟩
  | promote =>
    cases hp : r.pend with
    | none =>
      simp only [move, hp] at held
      exact ⟨e, held, le_refl e⟩
    | some d =>
      simp only [move, hp] at held
      rcases held with rfl | hpend
      · exact ⟨_, Or.inr hp, le_refl _⟩
      · cases hpend
  | reset origin => exact absurd rfl (continues origin)

theorem held_after (continues : Continues moves) {e : Lineage ω κ}
    (held : e ∈ (r.after moves).held) : ∃ d ∈ r.held, d ≤ e := by
  induction moves generalizing r with
  | nil => exact ⟨e, held, le_refl e⟩
  | cons m moves ih =>
    obtain ⟨d, hd, hle⟩ := ih (fun m hm => continues m (List.mem_cons_of_mem _ hm)) held
    obtain ⟨d', hd', hle'⟩ := held_move (continues m List.mem_cons_self) hd
    exact ⟨d', hd', hle'.trans hle⟩

/-- No root of the one ring lies on a line with a root of the other. -/
def Diverged (r r' : Ring ω κ) : Prop :=
  ∀ a ∈ r.held, ∀ b ∈ r'.held, ¬ a ≤ b ∧ ¬ b ≤ a

theorem Diverged.symm {r' : Ring ω κ} (h : Diverged r r') : Diverged r' r :=
  fun a ha b hb => (h b hb a ha).symm

theorem diverged_roll_promote (idle : r.pend = none) (secret : κ) :
    Diverged (r.after [.roll]) (r.after [.install secret, .promote]) := by
  have hroll : ∀ a ∈ (r.after [.roll]).held, a = r.curr.next .roll := by
    rintro a (rfl | hpend)
    · rfl
    · have hpend : r.pend = some a := hpend
      rw [idle] at hpend
      cases hpend
  have hmix : ∀ b ∈ (r.after [.install secret, .promote]).held, b = r.curr.next (.mix secret) := by
    rintro b (rfl | hpend)
    · rfl
    · cases hpend
  intro a ha b hb
  rw [hroll a ha, hmix b hb]
  constructor
  · intro hle
    rcases Lineage.le_next_iff.mp hle with hle | heq
    · exact Lineage.not_next_le _ _ hle
    · cases (Lineage.next_inj heq).2
  · intro hle
    rcases Lineage.le_next_iff.mp hle with hle | heq
    · exact Lineage.not_next_le _ _ hle
    · cases (Lineage.next_inj heq).2

theorem Diverged.after {r' : Ring ω κ} (h : Diverged r r') (continues : Continues moves) :
    Diverged (r.after moves) r' := by
  intro a ha b hb
  obtain ⟨d, hd, hle⟩ := held_after continues ha
  have hapart := h d hd b hb
  refine ⟨fun hab => hapart.1 (hle.trans hab), fun hba => ?_⟩
  rcases Lineage.comparable_of_le hle hba with hdb | hbd
  · exact hapart.1 hdb
  · exact hapart.2 hbd

section Healing

/-- The secret of the pending root, if these moves installed it, and the secrets
of the roots they promoted. -/
structure Tally (κ : Type) where
  waiting : Option κ
  promoted : List κ
  deriving DecidableEq, Repr

def Tally.observe (t : Tally κ) : Move ω κ → Tally κ
  | .roll => t
  | .install secret => { t with waiting := some secret }
  | .promote => ⟨none, t.promoted ++ t.waiting.toList⟩
  | .reset _ => t

def promotedSecrets (moves : List (Move ω κ)) : List κ :=
  (moves.foldl Tally.observe (⟨none, []⟩ : Tally κ)).promoted

def Descends (r : Ring ω κ) (secrets : List κ) (e : Lineage ω κ) : Prop :=
  ∃ d ∈ r.held, ∃ links, e = d.extend links ∧ secretsIn links = secrets

theorem Descends.next {secrets : List κ} {e : Lineage ω κ} (h : r.Descends secrets e)
    (link : Link κ) : r.Descends (secrets ++ secretsIn [link]) (e.next link) := by
  obtain ⟨d, hd, links, rfl, rfl⟩ := h
  exact ⟨d, hd, links ++ [link], Lineage.extend_next d links link, by simp⟩

theorem Descends.roll {secrets : List κ} {e : Lineage ω κ} (h : r.Descends secrets e) :
    r.Descends secrets (e.next .roll) := by
  simpa [secretsIn] using h.next .roll

structure Tracks (r : Ring ω κ) (t : Tally κ) (now : Ring ω κ) : Prop where
  curr : r.Descends t.promoted now.curr
  idle : now.pend = none → t.waiting = none
  pend : ∀ d, now.pend = some d → (t.waiting = none ∧ t.promoted = [] ∧ d ∈ r.held) ∨
    ∃ base secret, t.waiting = some secret ∧ d = base.next (.mix secret) ∧
      r.Descends t.promoted base

theorem tracks_start (r : Ring ω κ) : r.Tracks ⟨none, []⟩ r where
  curr := ⟨r.curr, Or.inl rfl, [], (Lineage.extend_nil _).symm, rfl⟩
  idle _ := rfl
  pend _ hd := Or.inl ⟨rfl, rfl, Or.inr hd⟩

theorem Tracks.move {t : Tally κ} {now : Ring ω κ} (h : r.Tracks t now)
    (continues : ∀ origin, m ≠ .reset origin) : r.Tracks (t.observe m) (now.move m) := by
  cases m with
  | roll => exact ⟨h.curr.roll, h.idle, h.pend⟩
  | install secret =>
    refine ⟨h.curr, by rintro ⟨⟩, ?_⟩
    rintro d ⟨⟩
    exact Or.inr ⟨now.curr, secret, rfl, rfl, h.curr⟩
  | promote =>
    cases hp : now.pend with
    | none =>
      have hsame : t.observe (.promote : Move ω κ) = t := by
        obtain ⟨waiting, promoted⟩ := t
        have hwaiting : waiting = none := h.idle hp
        simp [Tally.observe, hwaiting]
      rw [hsame]
      simpa [Ring.move, hp] using h
    | some d =>
      simp only [Ring.move, hp]
      refine ⟨?_, fun _ => rfl, by rintro d ⟨⟩⟩
      rcases h.pend d hp with ⟨hwaiting, hpromoted, hheld⟩ | ⟨base, secret, hwaiting, rfl, hbase⟩
      · exact ⟨d, hheld, [], (Lineage.extend_nil d).symm, by
          simp [Tally.observe, hwaiting, hpromoted, secretsIn]⟩
      · have hnext := hbase.next (.mix secret)
        simpa [Tally.observe, hwaiting, secretsIn] using hnext
  | reset origin => exact absurd rfl (continues origin)

theorem tracks_after (continues : Continues moves) :
    r.Tracks (moves.foldl Tally.observe ⟨none, []⟩) (r.after moves) := by
  suffices h : ∀ (t : Tally κ) (now : Ring ω κ), r.Tracks t now →
      r.Tracks (moves.foldl Tally.observe t) (now.after moves) from h _ _ (tracks_start r)
  induction moves with
  | nil => exact fun _ _ h => h
  | cons m moves ih =>
    intro t now h
    exact ih (fun m hm => continues m (List.mem_cons_of_mem _ hm)) _ _
      (h.move (continues m List.mem_cons_self))

theorem deducible_after (continues : Continues moves) {secrets : Set κ}
    (shared : ∀ secret ∈ promotedSecrets moves, secret ∈ secrets)
    (leaves : Set (Lineage ω κ × μ)) :
    Deducible secrets (r.exposed leaves) (.root (r.after moves).curr) := by
  obtain ⟨d, hd, links, hlinks, hsecrets⟩ := (tracks_after (r := r) continues).curr
  refine Deducible.root_iff.mpr ⟨d, links, Or.inl ⟨d, hd, rfl⟩, ?_, hlinks⟩
  rw [hsecrets]
  exact shared

theorem deducible_after_iff (continues : Continues moves) (idle : r.pend = none)
    {secrets : Set κ} (leaves : Set (Lineage ω κ × μ)) :
    Deducible secrets (r.exposed leaves) (.root (r.after moves).curr) ↔
      ∀ secret ∈ promotedSecrets moves, secret ∈ secrets := by
  refine ⟨fun h => ?_, fun shared => deducible_after continues shared leaves⟩
  have honly : ∀ d ∈ r.held, d = r.curr := by
    rintro d (rfl | hpend)
    · rfl
    · rw [idle] at hpend
      cases hpend
  obtain ⟨d, links, hknown, hshared, hcurr⟩ := Deducible.root_iff.mp h
  obtain ⟨e, he, links', hcurr', hsecrets⟩ := (tracks_after (r := r) continues).curr
  rcases hknown with ⟨d', hd, ⟨⟩⟩ | ⟨leaf, -, hleaf⟩
  · rw [honly d hd] at hcurr
    rw [honly e he, hcurr] at hcurr'
    rw [promotedSecrets, ← hsecrets, ← Lineage.extend_inj hcurr']
    exact hshared
  · cases hleaf

theorem held_deducible_move {secrets : Set κ} {known : Set (Item ω κ μ)}
    (start : ∀ d ∈ r.held, Deducible secrets known (.root d))
    (continues : ∀ origin, m ≠ .reset origin)
    (shared : ∀ secret, m = .install secret → secret ∈ secrets) :
    ∀ d ∈ (r.move m).held, Deducible secrets known (.root d) := by
  have hcurr := start r.curr (Or.inl rfl)
  intro d held
  cases m with
  | roll =>
    rcases held with rfl | hpend
    · exact .roll hcurr
    · exact start d (Or.inr hpend)
  | install secret =>
    rcases held with rfl | hpend
    · exact hcurr
    · cases hpend
      exact .mix hcurr (shared secret rfl)
  | promote =>
    cases hp : r.pend with
    | none =>
      simp only [move, hp] at held
      exact start d held
    | some e =>
      simp only [move, hp] at held
      rcases held with rfl | hpend
      · exact start _ (Or.inr hp)
      · cases hpend
  | reset origin => exact absurd rfl (continues origin)

theorem held_deducible_after {secrets : Set κ} {known : Set (Item ω κ μ)}
    (start : ∀ d ∈ r.held, Deducible secrets known (.root d)) (continues : Continues moves)
    (shared : ∀ secret, .install secret ∈ moves → secret ∈ secrets) :
    ∀ d ∈ (r.after moves).held, Deducible secrets known (.root d) := by
  induction moves generalizing r with
  | nil => exact start
  | cons m moves ih =>
    have hmove := held_deducible_move start (continues m List.mem_cons_self)
      fun secret h => shared secret (h ▸ List.mem_cons_self)
    exact ih hmove (fun m hm => continues m (List.mem_cons_of_mem _ hm))
      fun secret h => shared secret (List.mem_cons_of_mem _ h)

end Healing

end Ring

end SecureCore.Ratchet
