import AuriOS.Mm.Dump

/-!
# Peek and poke

`mmu_debug_peek` and `mmu_debug_poke` of `mmu.zig` read and write a byte at any address; a page of
the heap's range that is absent is mapped by the page fault.

* `access_heap`: how an access in that range ends;
* `debugRun_peek`: in every run of the two, what `peek` prints for an address is the byte poked
  there last.
-/

namespace AuriOS

open Program RecursiveTable

/-! ### The bytes of a word -/

/-- Where the byte at an address begins in its word. -/
def lane (va : BitVec 32) : ℕ := 8 * (va.toNat % 4)

/-- The byte of a word that an address selects. -/
def wordByte (w va : BitVec 32) : Byte := w.extractLsb' (lane va) 8

/-- The word with the byte that an address selects replaced. -/
def setWordByte (w va : BitVec 32) (b : Byte) : BitVec 32 :=
  (w &&& ~~~(0xFF#32 <<< lane va)) ||| (b.setWidth 32 <<< lane va)

/-- The mask of a byte has its eight low bits. -/
theorem byteMask_getLsbD (i : ℕ) : (0xFF#32).getLsbD i = decide (i < 8) := by
  by_cases hi : i < 32
  · revert i
    decide
  · rw [BitVec.getLsbD_of_ge _ _ (Nat.le_of_not_lt hi)]
    exact (decide_eq_false (by omega)).symm

/-- One byte is replaced. -/
theorem wordByte_setWordByte (w va va' : BitVec 32) (b : Byte) : wordByte (setWordByte w va b) va' =
    if va'.toNat % 4 = va.toNat % 4 then b else wordByte w va' := by
  have hlt := Nat.mod_lt va.toNat (show 4 > 0 by decide)
  have hlt' := Nat.mod_lt va'.toNat (show 4 > 0 by decide)
  refine BitVec.eq_of_getLsbD_eq fun i hi => ?_
  unfold wordByte setWordByte lane
  rw [BitVec.getLsbD_extractLsb', BitVec.getLsbD_or, BitVec.getLsbD_and, BitVec.getLsbD_not,
    BitVec.getLsbD_shiftLeft, BitVec.getLsbD_shiftLeft, BitVec.getLsbD_setWidth, byteMask_getLsbD]
  split
  · rename_i heq
    rw [heq]
    have hin : 8 * (va.toNat % 4) + i < 32 := by omega
    have hlow : i < 32 := by omega
    simp [hin, hi, hlow]
  · rename_i hne
    rw [BitVec.getLsbD_extractLsb']
    have hin : 8 * (va'.toNat % 4) + i < 32 := by omega
    by_cases hlow : 8 * (va'.toNat % 4) + i < 8 * (va.toNat % 4)
    · simp [hin, hi, hlow]
    · have hhigh : ¬ 8 * (va'.toNat % 4) + i - 8 * (va.toNat % 4) < 8 := by omega
      have hbit := BitVec.getLsbD_of_ge b _ (Nat.le_of_not_lt hhigh)
      simp [hin, hi, hlow, hhigh, hbit]

/-! ### The routines -/

/-- Load the byte at an address. -/
def loadByte (va : BitVec 32) : Kernel Byte := do
  let w ← load va
  pure (wordByte w va)

/-- Store a byte at an address. -/
def storeByte (va : BitVec 32) (b : Byte) : Kernel Unit := do
  let f ← accessWith onFault faultFuel va true
  modify fun s => s.stored va f (setWordByte (s.mem f (wordIndex va)) va b)

section Routines

-- what the 8 bytes of `print_hex` and the 11 bytes of `terminal_print_hex` happen to hold
variable (buf buf' : List Byte)

/-- `mmu_debug_peek`: what the serial line has sent, and the terminal. -/
def mmuDebugPeek (addr : BitVec 32) (line : List Byte) (k : Console) :
    Kernel (List Byte × Console) := do
  let line ← serialHex buf addr.toNat (line ++ chars "\r\n[DEBUG] Peeking at ")
  let line := line ++ chars "...\r\n"
  let ptr ← ptrFromInt addr
  let value ← loadByte ptr
  let k ← liftFault (terminalWritestring k (literal "Value found : "))
  let k ← liftFault (terminalPrintHex (value.setWidth 32) buf' k)
  let k ← liftFault (terminalWritestring k (literal "\n"))
  let line ← serialHex buf value.toNat (line ++ chars "Value found: ")
  pure (line ++ chars "\r\n", k)

/-- `mmu_debug_poke`. -/
def mmuDebugPoke (addr : BitVec 32) (value : Byte) (line : List Byte) (k : Console) :
    Kernel (List Byte × Console) := do
  let ptr ← ptrFromInt addr
  storeByte ptr value
  let k ← liftFault (terminalWritestring k (literal "Wrote "))
  let k ← liftFault (terminalPrintHex (value.setWidth 32) buf' k)
  let k ← liftFault (terminalWritestring k (literal " at "))
  let k ← liftFault (terminalPrintHex addr buf' k)
  let k ← liftFault (terminalWritestring k (literal "\n"))
  let line ← serialHex buf value.toNat (line ++ chars "\r\n[DEBUG] Poked ")
  let line ← serialHex buf addr.toNat (line ++ chars " at ")
  pure (line ++ chars "\r\n", k)

end Routines

/-! ### Accesses to the heap's range -/

/-- The byte at an address. -/
def Machine.byteAt (s : Machine) (va : BitVec 32) : Option Byte :=
  (s.owner (pageOwner va)).map fun f => wordByte (s.mem f (wordIndex va)) va

/-- An address that a page fault can back. -/
def HeapRange (va : BitVec 32) : Prop := 0xD0000000 ≤ va.toNat ∧ va.toNat < 0xFFC00000

instance (va : BitVec 32) : Decidable (HeapRange va) := inferInstanceAs (Decidable (_ ∧ _))

/-- The report of a page fault without a frame. -/
def outOfMemory (va : BitVec 32) (write : Bool) : Halt :=
  .pageFault va "Page not present (OOM)" (if write then " on Write\r\n" else " on READ\r\n")

section Accesses

variable {s s' : Machine} {va va' : BitVec 32} {write : Bool} {b : Byte} {f : BitVec 20}

/-- An address in the range is in the heap's slots. -/
theorem HeapRange.slot (h : HeapRange va) : HeapSlot (pdIndex va) := heapSlot_of_range h.1 h.2

/-- An access finds its page, or a page fault backs it, or there is no frame left. -/
theorem access_heap (h : Paging s) (hva : HeapRange va) (write : Bool) :
    (∃ f, s.owner (pageOwner va) = some f ∧
      accessWith onFault faultFuel va write s = .ok (f, s)) ∨
    (s.owner (pageOwner va) = none ∧ ¬ s.bitmap.Full ∧ ∃ a s', Backed s (va &&& 0xFFFFF000) a s' ∧
      accessWith onFault faultFuel va write s = .ok (frameOf a, s')) ∨
    (s.owner (pageOwner va) = none ∧ s.bitmap.Full ∧
      accessWith onFault faultFuel va write s = .error (outOfMemory va write)) := by
  obtain ⟨n, hn⟩ : ∃ n, faultFuel = n + 2 := ⟨2 ^ 20 - 1, by rw [faultFuel]; rfl⟩
  cases howner : s.owner (pageOwner va) with
  | some f =>
    refine Or.inl ⟨f, rfl, ?_⟩
    rw [hn]
    exact accessWith_ok onFault (translate_of_owner h howner) _ write
  | none =>
    have htrans : s.translate va = none := by
      rw [owner_eq_translate h hva.1 hva.2] at howner
      exact Option.map_eq_none_iff.mp howner
    have hstart : heapStart ≤ va := BitVec.le_def.mpr hva.1
    have haccess : ∀ r, onFault va write s = r → accessWith onFault faultFuel va write s =
        r >>= fun x => accessWith onFault (n + 1) va write x.2 := by
      rintro r rfl
      rw [hn, accessWith, get_bind_apply, htrans]
      rfl
    rcases pmmAllocFrame_cases s.bitmap with ⟨hfull, halloc⟩ | ⟨a, bm, halloc, hall⟩
    · have hfault : onFault va write s = .error (outOfMemory va write) := by
        rw [onFault, hn, pageFault, get_bind_apply, mmuHandlePageFaultWith, errorCode_present,
          htrans]
        refine (congrFun (if_neg (by simp)) s).trans ((congrFun (if_pos hstart) s).trans ?_)
        refine (bind_of_ok (allocFrame_ok halloc)).trans ((congrFun (if_neg (by simp)) _).trans ?_)
        rw [Machine.errorCode, htrans]
        cases write <;> rfl
      exact Or.inr (Or.inr ⟨rfl, hfull, haccess _ hfault⟩)
    · obtain ⟨a, s', hok, hb⟩ :=
        mmuHandlePageFaultWith_ok (pageFault (n + 1)) h hva.slot htrans hall.not_full write
      have hfault : onFault va write s = .ok ((), s') := by
        rw [onFault, hn, pageFault, get_bind_apply]
        exact hok
      refine Or.inr (Or.inl ⟨rfl, hall.not_full, a, s', hb, ?_⟩)
      have hpage := hb.owner_page
      rw [pageOwner_mask] at hpage
      rw [haccess _ hfault]
      exact accessWith_ok onFault (translate_of_owner hb.paging hpage) n write

/-- The byte at an address is in the frame that owns its page. -/
theorem byteAt_eq (hf : s.owner (pageOwner va) = some f) :
    s.byteAt va = some (wordByte (s.mem f (wordIndex va)) va) := congrArg _ hf

/-- There is no byte where no frame owns the page. -/
theorem byteAt_eq_none : s.byteAt va = none ↔ s.owner (pageOwner va) = none :=
  Option.map_eq_none_iff

/-- A byte of a page that is there stays when another page is mapped. -/
theorem Backed.byteAt {virt a : BitVec 32} (hb : Backed s virt a s')
    (hvirt : s.owner (pageOwner virt) = none) (hbyte : s.byteAt va = some b) :
    s'.byteAt va = some b := by
  obtain ⟨f, hf, rfl⟩ := Option.map_eq_some_iff.mp hbyte
  have hne : pageOwner va ≠ pageOwner virt := fun heq => by
    rw [heq, hvirt] at hf
    cases hf
  rw [byteAt_eq (hb.owner_mono _ _ hne hf), hb.mem_leaf _ _ _ hf]

/-- Two addresses with the same word in one page differ in the byte of the word. -/
theorem eq_of_lane (hpage : pageOwner va = pageOwner va') (hword : wordIndex va = wordIndex va')
    (hlane : va.toNat % 4 = va'.toNat % 4) : va = va' := by
  have hdiv := pageOwner_eq_iff.mp hpage
  have hindex := congrArg BitVec.toNat hword
  rw [wordIndex_toNat, wordIndex_toNat] at hindex
  rw [pageSize] at hdiv
  exact BitVec.eq_of_toNat_eq (by omega)

/-- A stored byte, and all others. -/
theorem byteAt_stored (h : Paging s) (hf : s.owner (pageOwner va) = some f)
    (hbyte : s.byteAt va' = some b) (c : Byte) :
    (s.stored va f (setWordByte (s.mem f (wordIndex va)) va c)).byteAt va' =
      some (if va' = va then c else b) := by
  obtain ⟨g, hg, rfl⟩ := Option.map_eq_some_iff.mp hbyte
  have hsame := owner_stored h hf (setWordByte (s.mem f (wordIndex va)) va c)
  rw [byteAt_eq (hsame.symm ▸ hg), Machine.stored]
  dsimp only
  rw [write_apply]
  split
  · -- the word that is stored
    rename_i hword
    obtain ⟨rfl, hindex⟩ := hword
    have hpage : pageOwner va' = pageOwner va := h.exclusive _ _ g hg hf
    rw [wordByte_setWordByte, ← hindex]
    refine congrArg some (if_congr ⟨eq_of_lane hpage hindex, fun heq => heq ▸ rfl⟩ rfl rfl)
  · rename_i hword
    have hne : va' ≠ va := by
      rintro rfl
      exact hword ⟨Option.some.inj (hg.symm.trans hf), rfl⟩
    rw [if_neg hne]

/-- A byte is loaded: from a page that is there nothing changes. -/
theorem loadByte_heap (h : Paging s) (hva : HeapRange va)
    (hframe : s.byteAt va = none → ¬ s.bitmap.Full) :
    ∃ b s', loadByte va s = .ok (b, s') ∧ s'.byteAt va = some b ∧ Evolves s s' ∧
      (∀ va' c, s.byteAt va' = some c → s'.byteAt va' = some c) ∧
      ((s.byteAt va).isSome → s' = s) := by
  have hload : ∀ {g : BitVec 20} {t : Machine},
      accessWith onFault faultFuel va false s = .ok (g, t) →
      loadByte va s = .ok (wordByte (t.mem g (wordIndex va)) va, t) := by
    intro g t haccess
    rw [loadByte, load, loadWith, bind_of_ok (bind_of_ok haccess)]
    rfl
  rcases access_heap h hva false with ⟨f, hf, haccess⟩ | ⟨hnone, hfree, a, s', hb, haccess⟩ |
    ⟨hnone, hfull, -⟩
  · exact ⟨_, s, hload haccess, byteAt_eq hf, .refl, fun _ _ hc => hc, fun _ => rfl⟩
  · have hpage := hb.owner_page
    rw [pageOwner_mask] at hpage
    have hslot : HeapSlot (pdIndex (va &&& 0xFFFFF000)) := by
      rw [(Owner.leaf.inj (pageOwner_mask va)).1]
      exact hva.slot
    refine ⟨_, s', hload haccess, byteAt_eq hpage, .single (.back _ a hslot hb),
      fun va' c hc => hb.byteAt (by rw [pageOwner_mask]; exact hnone) hc, fun hsome => ?_⟩
    rw [Machine.byteAt, hnone] at hsome
    cases hsome
  · exact absurd hfull (hframe (byteAt_eq_none.mpr hnone))

/-- A byte is stored. -/
theorem storeByte_heap (h : Paging s) (hva : HeapRange va)
    (hframe : s.byteAt va = none → ¬ s.bitmap.Full) (c : Byte) :
    ∃ s', storeByte va c s = .ok ((), s') ∧ s'.byteAt va = some c ∧ Evolves s s' ∧
      ∀ va' b, va' ≠ va → s.byteAt va' = some b → s'.byteAt va' = some b := by
  have hstore : ∀ {g : BitVec 20} {t : Machine},
      accessWith onFault faultFuel va true s = .ok (g, t) →
      storeByte va c s = .ok ((), t.stored va g (setWordByte (t.mem g (wordIndex va)) va c)) :=
    fun haccess => bind_of_ok haccess
  rcases access_heap h hva true with ⟨f, hf, haccess⟩ | ⟨hnone, hfree, a, s', hb, haccess⟩ |
    ⟨hnone, hfull, -⟩
  · refine ⟨_, hstore haccess, ?_, .single (.store va _ f hf), fun va' b hne hb => ?_⟩
    · rw [byteAt_stored h hf (byteAt_eq hf), if_pos rfl]
    · rw [byteAt_stored h hf hb, if_neg hne]
  · have hpage := hb.owner_page
    rw [pageOwner_mask] at hpage
    have hslot : HeapSlot (pdIndex (va &&& 0xFFFFF000)) := by
      rw [(Owner.leaf.inj (pageOwner_mask va)).1]
      exact hva.slot
    refine ⟨_, hstore haccess, ?_,
      (Relation.ReflTransGen.single (.back _ a hslot hb)).tail (.store va _ _ hpage),
      fun va' b hne hbyte => ?_⟩
    · rw [byteAt_stored hb.paging hpage (byteAt_eq hpage), if_pos rfl]
    · rw [byteAt_stored hb.paging hpage
        (hb.byteAt (by rw [pageOwner_mask]; exact hnone) hbyte), if_neg hne]
  · exact absurd hfull (hframe (byteAt_eq_none.mpr hnone))

/-- Without a frame for its page, neither is. -/
theorem byte_outOfMemory (h : Paging s) (hva : HeapRange va) (hnone : s.byteAt va = none)
    (hfull : s.bitmap.Full) (c : Byte) : loadByte va s = .error (outOfMemory va false) ∧
      storeByte va c s = .error (outOfMemory va true) := by
  have herror : ∀ write, accessWith onFault faultFuel va write s =
      .error (outOfMemory va write) := by
    intro write
    rcases access_heap h hva write with ⟨f, hf, -⟩ | ⟨-, hfree, -⟩ | ⟨-, -, haccess⟩
    · rw [byteAt_eq hf] at hnone
      cases hnone
    · exact absurd hfull hfree
    · exact haccess
  refine ⟨?_, bind_of_error (herror true)⟩
  rw [loadByte, load, loadWith]
  exact bind_of_error (bind_of_error (herror false))

end Accesses

/-! ### What is printed -/

/-- `peek` on the terminal. -/
def peekText (value : Byte) : List Byte :=
  chars "Value found : " ++ (hexText (value.setWidth 32) ++ chars "\n")

/-- `peek` on the serial line. -/
def peekLine (addr : BitVec 32) (value : Byte) : List Byte :=
  chars "\r\n[DEBUG] Peeking at " ++ (hexText addr ++ (chars "...\r\n" ++
    (chars "Value found: " ++ (hexText (value.setWidth 32) ++ chars "\r\n"))))

/-- What a poke prints on the terminal. -/
def pokeText (addr : BitVec 32) (value : Byte) : List Byte :=
  chars "Wrote " ++ (hexText (value.setWidth 32) ++
    (chars " at " ++ (hexText addr ++ chars "\n")))

/-- What a poke prints on the serial line. -/
def pokeLine (addr : BitVec 32) (value : Byte) : List Byte :=
  chars "\r\n[DEBUG] Poked " ++ (hexText (value.setWidth 32) ++
    (chars " at " ++ (hexText addr ++ chars "\r\n")))

section Printing

variable {buf buf' line : List Byte} {s s' : Machine} {addr : BitVec 32} {value : Byte}
  {k : Console} {e : Halt}

/-- A routine that prints, on a console in order. -/
theorem liftFault_sends {routine : Console → Except Fault Console} {text : List Byte}
    (h : Sends routine text) (hk : k.Valid) (s : Machine) : ∃ k', putchars k text = .ok k' ∧
      k'.Valid ∧ liftFault (routine k) s = .ok (k', s) := by
  obtain ⟨k', hprint, hk'⟩ := putchars_ok hk text
  refine ⟨k', hprint, hk', ?_⟩
  rw [h k, hprint]
  rfl

/-- A text without NUL is printed as it stands. -/
theorem sends_literal (text : String) (h : 0 ∉ chars text) :
    Sends (fun k => terminalWritestring k (literal text)) (chars text) :=
  sends_writestring (isString_literal h)

/-- What is printed one behind the other is printed as a whole. -/
theorem putchars_then {k₁ k₂ : Console} {a b : List Byte} (ha : putchars k a = .ok k₁)
    (hb : putchars k₁ b = .ok k₂) : putchars k (a ++ b) = .ok k₂ := by
  rw [putchars_append, ha]
  exact hb

/-- An address is sent as its text. -/
theorem serialHex_addr (hbuf : buf.length = 8) (addr : BitVec 32) (line : List Byte) (s : Machine) :
    serialHex buf addr.toNat line s = .ok (line ++ hexText addr, s) := by
  rw [serialHex_ok hbuf, BitVec.ofNat_toNat, BitVec.setWidth_eq]

/-- A byte is sent as the text of its value. -/
theorem serialHex_byte (hbuf : buf.length = 8) (value : Byte) (line : List Byte) (s : Machine) :
    serialHex buf value.toNat line s = .ok (line ++ hexText (value.setWidth 32), s) := by
  rw [serialHex_ok hbuf, BitVec.ofNat_toNat]

/-- An address other than 0 is a pointer. -/
theorem ptrFromInt_ok (haddr : addr ≠ 0) (s : Machine) : ptrFromInt addr s = .ok (addr, s) :=
  congrFun (if_neg haddr) s

/-- A peek that can read prints the byte. -/
theorem mmuDebugPeek_of_ok (hbuf : buf.length = 8) (hbuf' : buf'.length = 11) (haddr : addr ≠ 0)
    (hk : k.Valid) (hload : loadByte addr s = .ok (value, s')) (line : List Byte) :
    ∃ k', putchars k (peekText value) = .ok k' ∧ mmuDebugPeek buf buf' addr line k s =
      .ok ((line ++ peekLine addr value, k'), s') := by
  obtain ⟨k₁, h₁, hk₁, hrun₁⟩ :=
    liftFault_sends (sends_literal "Value found : " (by decide)) hk s'
  obtain ⟨k₂, h₂, hk₂, hrun₂⟩ :=
    liftFault_sends (terminalPrintHex_sends (value.setWidth 32) hbuf') hk₁ s'
  obtain ⟨k₃, h₃, -, hrun₃⟩ := liftFault_sends (sends_literal "\n" (by decide)) hk₂ s'
  refine ⟨k₃, putchars_then h₁ (putchars_then h₂ h₃), ?_⟩
  rw [mmuDebugPeek, bind_of_ok (serialHex_addr hbuf _ _ s), bind_of_ok (ptrFromInt_ok haddr s),
    bind_of_ok hload, bind_of_ok hrun₁, bind_of_ok hrun₂, bind_of_ok hrun₃,
    bind_of_ok (serialHex_byte hbuf _ _ s'), pure_apply, peekLine]
  simp only [List.append_assoc]

/-- A peek that cannot read ends as its load does. -/
theorem mmuDebugPeek_of_error (hbuf : buf.length = 8) (haddr : addr ≠ 0)
    (hload : loadByte addr s = .error e) (line : List Byte) (k : Console) :
    mmuDebugPeek buf buf' addr line k s = .error e := by
  rw [mmuDebugPeek, bind_of_ok (serialHex_addr hbuf _ _ s), bind_of_ok (ptrFromInt_ok haddr s)]
  exact bind_of_error hload

/-- A poke that can write prints what it wrote. -/
theorem mmuDebugPoke_of_ok (hbuf : buf.length = 8) (hbuf' : buf'.length = 11) (haddr : addr ≠ 0)
    (hk : k.Valid) (hstore : storeByte addr value s = .ok ((), s')) (line : List Byte) :
    ∃ k', putchars k (pokeText addr value) = .ok k' ∧ mmuDebugPoke buf buf' addr value line k s =
      .ok ((line ++ pokeLine addr value, k'), s') := by
  obtain ⟨k₁, h₁, hk₁, hrun₁⟩ :=
    liftFault_sends (sends_literal "Wrote " (by decide)) hk s'
  obtain ⟨k₂, h₂, hk₂, hrun₂⟩ :=
    liftFault_sends (terminalPrintHex_sends (value.setWidth 32) hbuf') hk₁ s'
  obtain ⟨k₃, h₃, hk₃, hrun₃⟩ :=
    liftFault_sends (sends_literal " at " (by decide)) hk₂ s'
  obtain ⟨k₄, h₄, hk₄, hrun₄⟩ := liftFault_sends (terminalPrintHex_sends addr hbuf') hk₃ s'
  obtain ⟨k₅, h₅, -, hrun₅⟩ := liftFault_sends (sends_literal "\n" (by decide)) hk₄ s'
  refine ⟨k₅, putchars_then h₁ (putchars_then h₂ (putchars_then h₃ (putchars_then h₄ h₅))), ?_⟩
  rw [mmuDebugPoke, bind_of_ok (ptrFromInt_ok haddr s), bind_of_ok hstore, bind_of_ok hrun₁,
    bind_of_ok hrun₂, bind_of_ok hrun₃, bind_of_ok hrun₄, bind_of_ok hrun₅,
    bind_of_ok (serialHex_byte hbuf _ _ s'), bind_of_ok (serialHex_addr hbuf _ _ s'), pure_apply,
    pokeLine]
  simp only [List.append_assoc]

/-- A poke that cannot write ends as its store does. -/
theorem mmuDebugPoke_of_error (haddr : addr ≠ 0) (hstore : storeByte addr value s = .error e)
    (line : List Byte) (k : Console) : mmuDebugPoke buf buf' addr value line k s = .error e := by
  rw [mmuDebugPoke, bind_of_ok (ptrFromInt_ok haddr s)]
  exact bind_of_error hstore

end Printing

/-! ### Runs of the two commands -/

/-- The byte poked last at each address. -/
abbrev Poked := BitVec 32 → Option Byte

section Runs

variable (buf buf' : List Byte)

/-- A call of either command for an address in the range. -/
inductive DebugStep : Machine × Poked → Machine × Poked → Prop
  | peek {s s' : Machine} {m : Poked} {r : List Byte × Console} (addr : BitVec 32)
      (line : List Byte) (k : Console) : HeapRange addr → k.Valid →
      mmuDebugPeek buf buf' addr line k s = .ok (r, s') → DebugStep (s, m) (s', m)
  | poke {s s' : Machine} {m : Poked} {r : List Byte × Console} (addr : BitVec 32) (value : Byte)
      (line : List Byte) (k : Console) : HeapRange addr → k.Valid →
      mmuDebugPoke buf buf' addr value line k s = .ok (r, s') →
      DebugStep (s, m) (s', Function.update m addr (some value))

/-- The poked bytes are there. -/
structure HoldsPoked (s₀ s : Machine) (m : Poked) : Prop where
  paging : Paging s
  evolves : Evolves s₀ s
  range : ∀ addr b, m addr = some b → HeapRange addr
  byte : ∀ addr b, m addr = some b → s.byteAt addr = some b

variable {buf buf'} {s₀ s s' : Machine} {m m' : Poked} {addr : BitVec 32}

/-- Address 0 is not in the range. -/
theorem HeapRange.ne_zero (h : HeapRange addr) : addr ≠ 0 := by
  rintro rfl
  exact absurd h (by decide)

/-- Every step keeps the poked bytes where they are. -/
theorem HoldsPoked.step (h : HoldsPoked s₀ s m) (hbuf : buf.length = 8) (hbuf' : buf'.length = 11)
    (hstep : DebugStep buf buf' (s, m) (s', m')) : HoldsPoked s₀ s' m' := by
  cases hstep with
  | peek addr line k haddr hk hrun =>
    by_cases hout : s.byteAt addr = none ∧ s.bitmap.Full
    · have hload := (byte_outOfMemory h.paging haddr hout.1 hout.2 0).1
      rw [mmuDebugPeek_of_error hbuf haddr.ne_zero hload] at hrun
      cases hrun
    · obtain ⟨b, t, hload, -, hev, hkept, -⟩ := loadByte_heap h.paging haddr (not_and.mp hout)
      obtain ⟨k', -, hok⟩ := mmuDebugPeek_of_ok hbuf hbuf' haddr.ne_zero hk hload line
      obtain rfl := (Prod.mk.inj (Except.ok.inj (hrun.symm.trans hok))).2
      exact ⟨h.paging.evolves hev, h.evolves.trans hev, h.range,
        fun addr b hb => hkept addr b (h.byte addr b hb)⟩
  | poke addr value line k haddr hk hrun =>
    by_cases hout : s.byteAt addr = none ∧ s.bitmap.Full
    · have hstore := (byte_outOfMemory h.paging haddr hout.1 hout.2 value).2
      rw [mmuDebugPoke_of_error haddr.ne_zero hstore] at hrun
      cases hrun
    · obtain ⟨t, hstore, hbyte, hev, hkept⟩ :=
        storeByte_heap h.paging haddr (not_and.mp hout) value
      obtain ⟨k', -, hok⟩ := mmuDebugPoke_of_ok hbuf hbuf' haddr.ne_zero hk hstore line
      obtain rfl := (Prod.mk.inj (Except.ok.inj (hrun.symm.trans hok))).2
      refine ⟨h.paging.evolves hev, h.evolves.trans hev, fun a b hb => ?_, fun a b hb => ?_⟩
      · by_cases ha : a = addr
        · exact ha ▸ haddr
        · rw [Function.update_of_ne ha] at hb
          exact h.range a b hb
      · by_cases ha : a = addr
        · subst ha
          rw [Function.update_self] at hb
          exact hb ▸ hbyte
        · rw [Function.update_of_ne ha] at hb
          exact hkept a b ha (h.byte a b hb)

end Runs

section Results

variable {bm : Bitmap} {mem : PhysMem} {s₀ s s' : Machine} {live : Live} {m : Poked}
  {buf buf' : List Byte}

/-- Whatever the heap did before, in every run of the two commands on addresses of the heap's range:
`peek` prints the byte poked last at its address and changes nothing; each command succeeds unless
its page is absent with no frame left; and no frame is written that neither the tables nor the heap
have. -/
theorem debugRun_peek (hstart : startMemory (.boot bm mem) = .ok ((), s₀))
    (hrun : Relation.ReflTransGen HeapUse (s₀, fun _ => none) (s, live))
    (hbuf : buf.length = 8) (hbuf' : buf'.length = 11)
    (hdebug : Relation.ReflTransGen (DebugStep buf buf') (s, fun _ => none) (s', m)) :
    (∀ addr b line k, m addr = some b → k.Valid → ∃ k', putchars k (peekText b) = .ok k' ∧
      mmuDebugPeek buf buf' addr line k s' = .ok ((line ++ peekLine addr b, k'), s')) ∧
    (∀ addr value line k, HeapRange addr → k.Valid → (s'.byteAt addr = none ∧ s'.bitmap.Full ∧
        mmuDebugPeek buf buf' addr line k s' = .error (outOfMemory addr false) ∧
        mmuDebugPoke buf buf' addr value line k s' = .error (outOfMemory addr true)) ∨
      (∃ r t, mmuDebugPeek buf buf' addr line k s' = .ok (r, t)) ∧
        ∃ r t, mmuDebugPoke buf buf' addr value line k s' = .ok (r, t)) ∧
    ∀ f, HeldApart s f → (f = 0 → ¬ s'.bitmap.Full) → s'.mem f = s.mem f := by
  obtain ⟨bs, hinv, -, -⟩ := heapUse_inv hstart hrun
  have hpaging := hinv.heap.blocks.pages.paging
  have hholds : HoldsPoked s s' m :=
    run_invariant (fun z : Machine × Poked => HoldsPoked s z.1 z.2) hdebug
      ⟨hpaging, .refl, fun _ _ h => (Option.some_ne_none _ h.symm).elim,
        fun _ _ h => (Option.some_ne_none _ h.symm).elim⟩
      fun h hstep => h.step hbuf hbuf' hstep
  refine ⟨fun addr b line k hb hk => ?_, fun addr value line k haddr hk => ?_, fun f hf h0 =>
    (apart_evolves hpaging hholds.evolves hf h0).2⟩
  · have hbyte := hholds.byte addr b hb
    have haddr := hholds.range addr b hb
    obtain ⟨c, t, hload, hc, -, -, hsame⟩ := loadByte_heap hholds.paging haddr fun hnone =>
      (Option.some_ne_none b (hbyte.symm.trans hnone)).elim
    obtain rfl := hsame (by rw [hbyte]; rfl)
    obtain rfl := Option.some.inj (hc.symm.trans hbyte)
    exact mmuDebugPeek_of_ok hbuf hbuf' haddr.ne_zero hk hload line
  · by_cases hout : s'.byteAt addr = none ∧ s'.bitmap.Full
    · obtain ⟨hload, hstore⟩ := byte_outOfMemory hholds.paging haddr hout.1 hout.2 value
      exact Or.inl ⟨hout.1, hout.2, mmuDebugPeek_of_error hbuf haddr.ne_zero hload line k,
        mmuDebugPoke_of_error haddr.ne_zero hstore line k⟩
    · obtain ⟨b, t, hload, -⟩ := loadByte_heap hholds.paging haddr (not_and.mp hout)
      obtain ⟨t', hstore, -⟩ := storeByte_heap hholds.paging haddr (not_and.mp hout) value
      obtain ⟨k', -, hpeek⟩ := mmuDebugPeek_of_ok hbuf hbuf' haddr.ne_zero hk hload line
      obtain ⟨k'', -, hpoke⟩ := mmuDebugPoke_of_ok hbuf hbuf' haddr.ne_zero hk hstore line
      exact Or.inr ⟨⟨_, _, hpeek⟩, _, _, hpoke⟩

/-- `A` is poked at the beginning of the heap. -/
theorem debugRun_peek_A : ∃ s₀ s m, startMemory (.boot smallBitmap fun _ _ => 0) = .ok ((), s₀) ∧
    Relation.ReflTransGen (DebugStep (List.replicate 8 0) (List.replicate 11 0))
      (s₀, fun _ => none) (s, m) ∧ m 0xD0000000 = some 0x41 ∧
    ∀ line k, k.Valid → ∃ k', putchars k (peekText 0x41) = .ok k' ∧
      mmuDebugPeek (List.replicate 8 0) (List.replicate 11 0) 0xD0000000 line k s =
        .ok ((line ++ peekLine 0xD0000000 0x41, k'), s) := by
  obtain ⟨s₀, hstart, hstarted⟩ := smallBitmap_started
  obtain ⟨bs, hinv, -, -⟩ := heapUse_inv hstart .refl
  obtain ⟨s, hstore, -⟩ := storeByte_heap hinv.heap.blocks.pages.paging
    (show HeapRange 0xD0000000 by decide) (fun _ => hstarted.not_full (by decide)) 0x41
  have hk := Console.initial_valid (fun _ => 0) ⟨0, fun _ => 0⟩
  have hbuf : (List.replicate 8 (0 : Byte)).length = 8 := List.length_replicate
  have hbuf' : (List.replicate 11 (0 : Byte)).length = 11 := List.length_replicate
  obtain ⟨k', -, hpoke⟩ := mmuDebugPoke_of_ok hbuf hbuf' (by decide) hk hstore []
  have hdebug := Relation.ReflTransGen.single
    (DebugStep.poke (m := fun _ => none) 0xD0000000 0x41 []
    _ (by decide) hk hpoke)
  have hpoked : Function.update (fun _ => none : Poked) 0xD0000000 (some 0x41) 0xD0000000 =
      some 0x41 := Function.update_self ..
  exact ⟨s₀, s, _, hstart, hdebug, hpoked, fun line k =>
    (debugRun_peek hstart .refl hbuf hbuf' hdebug).1 _ _ line k hpoked⟩

end Results

end AuriOS
