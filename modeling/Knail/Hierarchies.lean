import Mathlib.Tactic.Common

/-!
# Hierarchies of entries

Entries are listed by their owners: a root, which is `none`, or other entries. Those that are found
from the root on stay the same when the lists do, and adding or removing an entry without entries
of its own adds or removes just that entry.
-/
namespace Knail

variable {π : Type*} {kids kids' : Option π→List π} {o o₀ : Option π} {p : π}

inductive Below (kids : Option π→List π) : Option π→Prop
  | root : Below kids none
  | entry {o : Option π} {p : π} : Below kids o→p∈kids o→Below kids (some p)

namespace Below

/-- The owner of an entry that is found. -/
theorem exists_owner (h : Below kids (some p)) : ∃o,Below kids o ∧ p∈kids o:=by
  cases h with
  | entry ho hp=>exact ⟨_,ho,hp⟩

theorem mono (hsub : ∀o,Below kids o→∀q∈kids o,q∈kids' o) (h : Below kids o) : Below kids' o:=by
  induction h with
  | root=>exact root
  | entry ho hp ih=>exact entry ih (hsub _ ho _ hp)

theorem congr (hiff : ∀o,Below kids o→∀q,q∈kids' o↔q∈kids o) : Below kids' o↔Below kids o:=by
  refine ⟨fun h=>?_,mono fun o ho q hq=>(hiff o ho q).mpr hq⟩
  induction h with
  | root=>exact root
  | entry ho hp ih=>exact entry ih ((hiff _ ih _).mp hp)

/-- An entry is added to the list of one owner. -/
theorem add_iff (ho0 : Below kids o₀) (hempty : kids' (some p)=[])
    (hiff : ∀o,Below kids o→∀q,q∈kids' o↔q∈kids o ∨ (o=o₀ ∧ q=p)) : Below kids' o↔Below kids o ∨ o=some p:=by
  have hold {o : Option π} (h : Below kids o) : Below kids' o:=mono (fun o ho q hq=>(hiff o ho q).mpr (.inl hq)) h
  constructor
  · intro h
    induction h with
    | root=>exact .inl root
    | entry ho hp ih=>
      obtain ih | rfl:=ih
      · obtain hq | ⟨-,rfl⟩:=(hiff _ ih _).mp hp
        exacts [.inl (entry ih hq),.inr rfl]
      · rw [hempty] at hp
        cases hp
  · rintro (h | rfl)
    exacts [hold h,entry (hold ho0) ((hiff o₀ ho0 p).mpr (.inr ⟨rfl,rfl⟩))]

/-- An entry that lists nothing is removed. -/
theorem remove_iff (hempty : kids (some p)=[]) (hiff : ∀o,Below kids o→∀q,q∈kids' o↔q∈kids o ∧ q≠p) :
    Below kids' o↔Below kids o ∧ o≠some p:=by
  constructor
  · intro h
    induction h with
    | root=>exact ⟨root,by simp⟩
    | entry ho hp ih=>
      obtain ⟨hq,hne⟩:=(hiff _ ih.1 _).mp hp
      exact ⟨entry ih.1 hq,by simpa using hne⟩
  · rintro ⟨h,hne⟩
    induction h with
    | root=>exact root
    | @entry o q ho hq ih=>
      have ho' : o≠some p:=by
        rintro rfl
        rw [hempty] at hq
        cases hq
      exact entry (ih ho') ((hiff o ho q).mpr ⟨hq,by simpa using hne⟩)

end Below

end Knail
