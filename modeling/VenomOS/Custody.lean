/-
Custody of resources that are named by numbers.  Each place of a system holds
at most one of them, and zero stands for none.  No resource is in two places,
all of them are allocated, and the ones in the places for waste are those
their owners gave up.
-/
import Mathlib

namespace VenomOS

variable {P : Type}

structure Custody (content : P → Nat) (waste : P → Prop)
    (owned retired : Finset Nat) : Prop where
  distinct : ∀ {p q}, content p = content q → content p ≠ 0 → p = q
  owned : ∀ {p}, content p ≠ 0 → content p ∈ owned
  retired : ∀ {p}, waste p → content p ≠ 0 → content p ∈ retired

namespace Custody

variable {content content' : P → Nat} {waste waste' : P → Prop}
  {owned retired retired' : Finset Nat} {p q : P} {resource : Nat}

theorem mono (hcustody : Custody content waste owned retired)
    (hwaste : ∀ x, waste' x → content x ≠ 0 → waste x) :
    Custody content waste' owned retired where
  distinct := hcustody.distinct
  owned := hcustody.owned
  retired hx hne := hcustody.retired (hwaste _ hx hne) hne

variable [DecidableEq P]

/-- What `p` holds goes to `q`; what `q` held is forgotten. -/
theorem move (hcustody : Custody content waste owned retired)
    (hcontent : content' = Function.update (Function.update content p 0) q
      (content p))
    (hwaste : ∀ x, x ≠ q → waste' x → content' x ≠ 0 → waste x)
    (hsub : retired ⊆ retired')
    (hq : waste' q → content p ≠ 0 → content p ∈ retired') :
    Custody content' waste' owned retired' := by
  have hfrom : ∀ x, content' x ≠ 0 →
      ∃ y, content' x = content y ∧ (x = q ∧ y = p ∨ x ≠ q ∧ x ≠ p ∧ y = x) := by
    intro x hx
    rw [hcontent] at hx ⊢
    by_cases hxq : x = q
    · exact ⟨p, by simp [hxq], Or.inl ⟨hxq, rfl⟩⟩
    · rw [Function.update_of_ne hxq] at hx ⊢
      by_cases hxp : x = p
      · simp [hxp] at hx
      · exact ⟨x, Function.update_of_ne hxp _ _, Or.inr ⟨hxq, hxp, rfl⟩⟩
  refine ⟨fun {x y} heq hx => ?_, fun {x} hx => ?_, fun {x} hwx hx => ?_⟩
  · obtain ⟨x', hx', hcasex⟩ := hfrom x hx
    obtain ⟨y', hy', hcasey⟩ := hfrom y (heq ▸ hx)
    have hsame : x' = y' := hcustody.distinct (by rw [← hx', ← hy', heq])
      (by rwa [← hx'])
    grind
  · obtain ⟨y, hy, _⟩ := hfrom x hx
    rw [hy] at hx ⊢
    exact hcustody.owned hx
  · obtain ⟨y, hy, ⟨rfl, rfl⟩ | ⟨hxq, _, rfl⟩⟩ := hfrom x hx
    · rw [hy] at hx ⊢
      exact hq hwx hx
    · have hw := hwaste _ hxq hwx hx
      rw [hy] at hx ⊢
      exact hsub (hcustody.retired hw hx)

/-- What `p` holds is released. -/
theorem release (hcustody : Custody content waste owned retired)
    (hcontent : content' = Function.update content p 0)
    (hwaste : ∀ x, waste' x → content' x ≠ 0 → waste x) :
    Custody content' waste' (owned.erase (content p)) retired := by
  have hfrom : ∀ {x}, content' x ≠ 0 → x ≠ p ∧ content' x = content x := by
    intro x hx
    rw [hcontent] at hx ⊢
    by_cases hxp : x = p
    · simp [hxp] at hx
    · exact ⟨hxp, Function.update_of_ne hxp _ _⟩
  refine ⟨fun {x y} heq hx => ?_, fun {x} hx => ?_, fun {x} hwx hx => ?_⟩
  · have hy := (hfrom (heq ▸ hx)).2
    have hx' := (hfrom hx).2
    exact hcustody.distinct (by rw [← hx', ← hy, heq]) (by rwa [← hx'])
  · obtain ⟨hxp, hx'⟩ := hfrom hx
    rw [hx'] at hx ⊢
    refine Finset.mem_erase.mpr ⟨fun heq => ?_, hcustody.owned hx⟩
    exact hxp (hcustody.distinct heq hx)
  · have hw := hwaste _ hwx hx
    obtain ⟨_, hx'⟩ := hfrom hx
    rw [hx'] at hx ⊢
    exact hcustody.retired hw hx

/-- A resource nobody has is allocated to `p`. -/
theorem gain (hcustody : Custody content waste owned retired)
    (hcontent : content' = Function.update content p resource)
    (hfresh : resource ∉ owned)
    (hwaste : ∀ x, waste' x → content' x ≠ 0 → waste x) (hp : ¬waste' p) :
    Custody content' waste' (insert resource owned)
      (retired.erase resource) := by
  have hfrom : ∀ {x}, x ≠ p → content' x = content x := fun hx => by
    rw [hcontent, Function.update_of_ne hx]
  have hself : content' p = resource := by
    rw [hcontent, Function.update_self]
  have hne : ∀ {x}, x ≠ p → content' x ≠ 0 → content' x ≠ resource := by
    intro x hx hx0 heq
    rw [hfrom hx] at hx0 heq
    exact hfresh (heq ▸ hcustody.owned hx0)
  refine ⟨fun {x y} heq hx => ?_, fun {x} hx => ?_, fun {x} hwx hx => ?_⟩
  · by_cases hxp : x = p
    · by_cases hyp : y = p
      · rw [hxp, hyp]
      · exact absurd (by rw [← heq, hxp, hself]) (hne hyp (heq ▸ hx))
    · by_cases hyp : y = p
      · exact absurd (by rw [heq, hyp, hself]) (hne hxp hx)
      · rw [hfrom hxp] at hx heq
        exact hcustody.distinct (heq.trans (hfrom hyp)) hx
  · by_cases hxp : x = p
    · rw [hxp, hself]
      exact Finset.mem_insert_self _ _
    · rw [hfrom hxp] at hx ⊢
      exact Finset.mem_insert_of_mem (hcustody.owned hx)
  · have hxp : x ≠ p := fun heq => hp (heq ▸ hwx)
    have hw := hwaste _ hwx hx
    refine Finset.mem_erase.mpr ⟨hne hxp hx, ?_⟩
    rw [hfrom hxp] at hx ⊢
    exact hcustody.retired hw hx

end Custody

end VenomOS
