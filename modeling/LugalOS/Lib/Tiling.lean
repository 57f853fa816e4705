import Mathlib.Data.Finset.SDiff

namespace LugalOS.Tiling

variable {α β : Type} {has : β → α → Prop} {R R' : α → Prop} {s old new : Finset β}

structure Tiles (has : β → α → Prop) (R : α → Prop) (s : Finset β) : Prop where
  inside : ∀b∈s,∀k,has b k → R k
  cover : ∀k,R k → ∃b∈s,has b k
  one : ∀b∈s,∀c∈s,∀k,has b k → has c k → b=c

theorem Tiles.single {b : β} (h : ∀k,has b k ↔ R k) : Tiles has R {b} where
  inside c hc k hk := by
    rw [Finset.mem_singleton.mp hc] at hk
    exact (h k).mp hk
  cover k hk := ⟨b,Finset.mem_singleton_self b,(h k).mpr hk⟩
  one c hc d hd _ _ _ := (Finset.mem_singleton.mp hc).trans (Finset.mem_singleton.mp hd).symm

variable [DecidableEq β]

theorem Tiles.pair {b c : β} (h : ∀k,R k ↔ has b k ∨ has c k) (ha : ∀k,has b k → ¬has c k) :
    Tiles has R {b,c} where
  inside d hd k hk := by
    rw [Finset.mem_insert,Finset.mem_singleton] at hd
    obtain rfl | rfl := hd
    · exact (h k).mpr (.inl hk)
    · exact (h k).mpr (.inr hk)
  cover k hk := by
    obtain hb | hc := (h k).mp hk
    · exact ⟨b,Finset.mem_insert_self _ _,hb⟩
    · exact ⟨c,by simp,hc⟩
  one d hd e he k hk hk' := by
    rw [Finset.mem_insert,Finset.mem_singleton] at hd he
    obtain rfl | rfl := hd
    · obtain rfl | rfl := he
      · rfl
      · exact absurd hk' (ha k hk)
    · obtain rfl | rfl := he
      · exact absurd hk (ha k hk')
      · rfl

theorem Tiles.replace (h : Tiles has R s) (hs : old⊆s) (ho : Tiles has R' old)
    (hn : Tiles has R' new) : Tiles has R (s\old ∪ new) := by
  have hold : ∀k,R' k → R k := by
    intro k hk
    obtain ⟨b,hb,hbk⟩ := ho.cover k hk
    exact h.inside b (hs hb) k hbk
  have hout : ∀b∈s\old,∀k,has b k → ¬R' k := by
    intro b hb k hbk hk
    obtain ⟨hbs,hbo⟩ := Finset.mem_sdiff.mp hb
    obtain ⟨c,hc,hck⟩ := ho.cover k hk
    rw [h.one b hbs c (hs hc) k hbk hck] at hbo
    exact hbo hc
  constructor
  · intro b hb k hk
    obtain hb | hb := Finset.mem_union.mp hb
    · exact h.inside b (Finset.mem_sdiff.mp hb).1 k hk
    · exact hold k (hn.inside b hb k hk)
  · intro k hk
    by_cases hr : R' k
    · obtain ⟨b,hb,hbk⟩ := hn.cover k hr
      exact ⟨b,Finset.mem_union_right _ hb,hbk⟩
    · obtain ⟨b,hb,hbk⟩ := h.cover k hk
      have hbo : b∉old := fun hbo => hr (ho.inside b hbo k hbk)
      exact ⟨b,Finset.mem_union_left _ (Finset.mem_sdiff.mpr ⟨hb,hbo⟩),hbk⟩
  · intro b hb c hc k hk hk'
    obtain hb | hb := Finset.mem_union.mp hb
    · obtain hc | hc := Finset.mem_union.mp hc
      · exact h.one b (Finset.mem_sdiff.mp hb).1 c (Finset.mem_sdiff.mp hc).1 k hk hk'
      · exact absurd (hn.inside c hc k hk') (hout b hb k hk)
    · obtain hc | hc := Finset.mem_union.mp hc
      · exact absurd (hn.inside b hb k hk) (hout c hc k hk')
      · exact hn.one b hb c hc k hk hk'

end LugalOS.Tiling
