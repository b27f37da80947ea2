import AuriOS.Lib.HeapPages

/-!
# The words of the heap

Every page of the heap is mapped, so a load or store at an address of the heap neither faults nor
touches anything but one word.  `HeapView` shows the heap as a function from addresses to words,
and `Performs` evaluates the routines of `memory.c` on this view: `load_performs`,
`store_performs`, and from them the accesses to the fields of a header.

What a routine does to the rest of the machine is bounded by `StoredIn A`: it stores words at
addresses in `A`, and that is all.
-/

namespace AuriOS

open Program RecursiveTable

/-- The address of a word of the heap that ends at `hi`. -/
structure HeapAddr (hi a : ℕ) : Prop where
  start_le : 0xD0000000 ≤ a
  lt : a < hi
  aligned : a % 4 = 0

/-- The word at an address of the heap. -/
def Machine.heapWord (s : Machine) (a : ℕ) : BitVec 32 :=
  match s.owner (pageOwner (BitVec.ofNat 32 a)) with
  | some f => s.mem f (wordIndex (BitVec.ofNat 32 a))
  | none => 0

/-- The heap ends at `hi`, its list starts at `head`, and its words are `w`. -/
structure HeapView (hi : ℕ) (head : BitVec 32) (s : Machine) (w : ℕ → BitVec 32) : Prop where
  pages : HeapPages s
  heapEnd_eq : s.heapEnd.toNat = hi
  head_eq : s.head = head
  word_eq : ∀ a, HeapAddr hi a → s.heapWord a = w a

/-- Words were stored at addresses in `A`, and nothing else was done. -/
structure StoredIn (A : Set ℕ) (s s' : Machine) : Prop where
  bitmap_eq : s'.bitmap = s.bitmap
  heapEnd_eq : s'.heapEnd = s.heapEnd
  head_eq : s'.head = s.head
  owner_eq : s'.owner = s.owner
  evolves : Evolves s s'
  trace : ∃ evs, s'.trace = evs ++ s.trace ∧
    ∀ e ∈ evs, ∃ va f, e = .store va f ∧ va.toNat ∈ A
  /-- Every other word of the heap is what it was. -/
  word_eq : ∀ a, HeapAddr s.heapEnd.toNat a → a ∉ A → s'.heapWord a = s.heapWord a

namespace StoredIn

variable {A : Set ℕ}

/-- No store is a store to any set. -/
theorem refl (s : Machine) : StoredIn A s s :=
  ⟨rfl, rfl, rfl, rfl, .refl, ⟨[], rfl, by simp⟩, fun _ _ _ => rfl⟩

/-- Stores in sequence are stores to the same set. -/
theorem trans {s t u : Machine} (h : StoredIn A s t) (h' : StoredIn A t u) : StoredIn A s u := by
  obtain ⟨evs, hevs, hA⟩ := h.trace
  obtain ⟨evs', hevs', hA'⟩ := h'.trace
  refine ⟨h'.bitmap_eq.trans h.bitmap_eq, h'.heapEnd_eq.trans h.heapEnd_eq,
    h'.head_eq.trans h.head_eq, h'.owner_eq.trans h.owner_eq, h.evolves.trans h'.evolves,
    ⟨evs' ++ evs, by rw [hevs', hevs, List.append_assoc], fun e he => ?_⟩, fun a ha hout => ?_⟩
  · rcases List.mem_append.mp he with he | he
    · exact hA' e he
    · exact hA e he
  · rw [h'.word_eq a (by rw [h.heapEnd_eq]; exact ha) hout, h.word_eq a ha hout]

instance : Std.Refl (StoredIn A) := ⟨refl⟩

instance : IsTrans Machine (StoredIn A) := ⟨fun _ _ _ => trans⟩

/-- Stores to a set are stores to a larger one. -/
theorem mono {B : Set ℕ} {s s' : Machine} (h : StoredIn A s s') (hAB : ∀ a ∈ A, a ∈ B) :
    StoredIn B s s' := by
  obtain ⟨evs, hevs, hA⟩ := h.trace
  refine ⟨h.bitmap_eq, h.heapEnd_eq, h.head_eq, h.owner_eq, h.evolves, ⟨evs, hevs, fun e he => ?_⟩,
    fun a ha hout => h.word_eq a ha fun hc => hout (hAB a hc)⟩
  obtain ⟨va, f, hst, hmem⟩ := hA e he
  exact ⟨va, f, hst, hAB _ hmem⟩

end StoredIn

/-! ### Loads and stores -/

section Word

variable {s : Machine} {hi : ℕ} {head : BitVec 32} {w : ℕ → BitVec 32} {A : Set ℕ} {va : BitVec 32}

/-- The word at an address of the heap is in the frame that owns its page. -/
theorem HeapView.owner_addr (h : HeapView hi head s w) (ha : HeapAddr hi va.toNat) :
    ∃ f, s.owner (pageOwner va) = some f ∧ s.mem f (wordIndex va) = w va.toNat := by
  obtain ⟨f, hf⟩ := h.pages.present va ha.start_le (h.heapEnd_eq ▸ ha.lt)
  refine ⟨f, hf, ?_⟩
  rw [← h.word_eq _ ha, Machine.heapWord, BitVec.ofNat_toNat, BitVec.setWidth_eq, hf]

/-- Two aligned addresses with the same word of the same page are equal. -/
theorem wordAddr_inj {a : ℕ} (ha : HeapAddr hi a) (hva : HeapAddr hi va.toNat)
    (hlimit : hi ≤ 0xFFC00000) (hpage : pageOwner (BitVec.ofNat 32 a) = pageOwner va)
    (hword : wordIndex (BitVec.ofNat 32 a) = wordIndex va) : a = va.toNat := by
  have hlt := ha.lt
  have hmod := ha.aligned
  have hmod' := hva.aligned
  have hto : (BitVec.ofNat 32 a).toNat = a := by
    rw [BitVec.toNat_ofNat]
    omega
  rw [pageOwner_eq_iff, hto, pageSize] at hpage
  replace hword := congrArg BitVec.toNat hword
  rw [wordIndex_toNat, wordIndex_toNat, hto] at hword
  omega

/-- The heap that is seen ends below the window. -/
theorem HeapView.limit (h : HeapView hi head s w) : hi ≤ 0xFFC00000 :=
  h.heapEnd_eq ▸ h.pages.le_window

/-- A load returns the word of the heap. -/
theorem load_performs (ha : HeapAddr hi va.toNat) :
    Performs (HeapView hi head) (StoredIn A) w (load va) (w va.toNat) w := by
  intro s hs
  obtain ⟨f, hf, hword⟩ := hs.owner_addr ha
  exact ⟨s, hword ▸ load_ok hs.pages.paging hf, hs, .refl s⟩

/-- A store changes one word of the heap. -/
theorem heapWord_stored {f : BitVec 20} {s : Machine} (h : HeapView hi head s w)
    (ha : HeapAddr hi va.toNat) (hf : s.owner (pageOwner va) = some f) (v : BitVec 32) {a : ℕ}
    (haddr : HeapAddr hi a) :
    (s.stored va f v).heapWord a = Function.update w va.toNat v a := by
  have hlt := haddr.lt
  have hlimit := h.limit
  have hto : (BitVec.ofNat 32 a).toNat = a := by
    rw [BitVec.toNat_ofNat]
    omega
  obtain ⟨g, hg⟩ := h.pages.present (BitVec.ofNat 32 a) (hto.symm ▸ haddr.start_le)
    (by rw [hto, h.heapEnd_eq]; exact hlt)
  have hold := h.word_eq a haddr
  rw [Machine.heapWord, hg] at hold
  rw [Machine.heapWord, owner_stored h.pages.paging hf v, hg]
  dsimp only at hold ⊢
  by_cases hav : a = va.toNat
  · have hva : BitVec.ofNat 32 a = va := BitVec.eq_of_toNat_eq (hto.trans hav)
    rw [hva] at hg ⊢
    obtain rfl := Option.some.inj (hf.symm.trans hg)
    rw [hav, Function.update_self]
    exact (write_apply _ _ _ _ _ _).trans (if_pos ⟨rfl, rfl⟩)
  · rw [Function.update_of_ne hav, ← hold]
    refine (write_apply _ _ _ _ _ _).trans (if_neg fun hc => hav ?_)
    refine wordAddr_inj haddr ha hlimit ?_ hc.2
    exact h.pages.paging.exclusive _ _ _ (hg.trans (congrArg some hc.1)) hf

/-- A store to the heap writes its word. -/
theorem store_performs (ha : HeapAddr hi va.toNat) (hA : va.toNat ∈ A) (v : BitVec 32) :
    Performs (HeapView hi head) (StoredIn A) w (store va v) () (Function.update w va.toNat v) := by
  intro s hs
  obtain ⟨f, hf, -⟩ := hs.owner_addr ha
  have howner := owner_stored hs.pages.paging hf v
  refine ⟨_, store_ok hs.pages.paging hf v,
    ⟨hs.pages.stored hf v, hs.heapEnd_eq, hs.head_eq, fun a => heapWord_stored hs ha hf v⟩,
    ⟨rfl, rfl, rfl, howner, .single (.store va v f hf), ⟨[_], rfl, ?_⟩, ?_⟩⟩
  · intro e he
    exact ⟨va, f, List.mem_singleton.mp he, hA⟩
  · intro a haddr hout
    rw [hs.heapEnd_eq] at haddr
    rw [heapWord_stored hs ha hf v haddr, hs.word_eq a haddr, Function.update_of_ne]
    rintro rfl
    exact hout hA

/-- Growing the heap keeps its words. -/
theorem Grown.heapWord {s s' : Machine} {n a : ℕ} (hg : Grown n s s') (h : HeapPages s)
    (ha : HeapAddr s.heapEnd.toNat a) : s'.heapWord a = s.heapWord a := by
  have hlt := ha.lt
  have hto : (BitVec.ofNat 32 a).toNat = a := by
    have := h.le_window
    rw [BitVec.toNat_ofNat]
    omega
  obtain ⟨f, hf⟩ := h.present (BitVec.ofNat 32 a) (hto.symm ▸ ha.start_le) (hto.symm ▸ hlt)
  obtain ⟨howner, hmem⟩ := hg.keeps_below h (lt_of_eq_of_lt hto hlt)
  rw [Machine.heapWord, Machine.heapWord, howner, hf]
  dsimp only
  rw [hmem f hf]

/-- So does mapping a page that was absent. -/
theorem Backed.heapWord {s s' : Machine} {virt p : BitVec 32} {a : ℕ} (hb : Backed s virt p s')
    (h : HeapPages s) (habsent : s.owner (pageOwner virt) = none)
    (ha : HeapAddr s.heapEnd.toNat a) : s'.heapWord a = s.heapWord a := by
  have hlt := ha.lt
  have hto : (BitVec.ofNat 32 a).toNat = a := by
    have := h.le_window
    rw [BitVec.toNat_ofNat]
    omega
  obtain ⟨f, hf⟩ := h.present (BitVec.ofNat 32 a) (hto.symm ▸ ha.start_le) (hto.symm ▸ hlt)
  have hne : pageOwner (BitVec.ofNat 32 a) ≠ pageOwner virt := by
    intro hc
    rw [hc, habsent] at hf
    exact absurd hf (by simp)
  have howner : s'.owner (pageOwner (BitVec.ofNat 32 a)) =
      s.owner (pageOwner (BitVec.ofNat 32 a)) :=
    hb.owner_leaf _ _ hne
  rw [Machine.heapWord, Machine.heapWord, howner, hf]
  dsimp only
  rw [hb.mem_leaf _ _ f hf]

end Word

end AuriOS
