import AuriOS.Foundation.Words
import AuriOS.Kernel.Shell

/-!
# The words of a command line

What `shell_parse` makes of a line: the blanks around it are cut off by `str_trim`, and its words,
the maximal parts without a space, are terminated where they lie.

* `strTrim_eq`: the line without the spaces and tabs around it;
* `parseFrom_eq`: the pointers are those of the first words, and `cutWords` says what is left of the
  line;
* `shellParse_words`: the whole routine, for every line.
-/

namespace AuriOS

open Program Words

/-! ### Stripping -/

/-- A line without the blanks around it. -/
def strip (line : List Byte) : List Byte := (line.dropWhile isBlank).rdropWhile isBlank

/-- How many blanks stand in front of a line. -/
def leading (line : List Byte) : ℕ := (line.takeWhile isBlank).length

/-- A line with NULs for the blanks behind it. -/
def trimmed (line : List Byte) : List Byte :=
  line.takeWhile isBlank ++
    (strip line ++ List.replicate ((line.dropWhile isBlank).rtakeWhile isBlank).length 0)

section Strip

variable {line text pre trail post : List Byte} {a : Byte}

/-- By induction on the blanks, from the last one on; `a` is the last character that is none. -/
theorem trimEnd_eq (ha : isBlank a = false) (htrail : ∀ b ∈ trail, isBlank b = true) :
    trimEnd (pre ++ (text ++ a :: (trail ++ post))) pre.length (text.length + trail.length) =
      .ok (pre ++ (text ++ a :: (List.replicate trail.length 0 ++ post))) := by
  induction trail using List.reverseRecOn generalizing post with
  | nil =>
    cases hlength : text.length with
    | zero => rfl
    | succ n =>
      have hread : getByte (pre ++ (text ++ a :: ([] ++ post))) (pre.length + (n + 1) : ℕ) =
          .ok a := by
        have hget := getByte_append (pre ++ text) post a
        rwa [List.length_append, hlength, List.append_assoc] at hget
      rw [List.length_nil, Nat.add_zero, trimEnd, hread, ok_bind, if_neg (by simp [ha])]
      rfl
  | append_singleton trail b ih =>
    rw [List.forall_mem_append, List.forall_mem_singleton] at htrail
    have hsplit : pre ++ (text ++ a :: (trail ++ [b] ++ post)) =
        (pre ++ (text ++ a :: trail)) ++ b :: post := by simp
    have hindex : (pre ++ (text ++ a :: trail)).length =
        pre.length + (text.length + trail.length + 1) := by
      rw [List.length_append, List.length_append, List.length_cons]
      rfl
    have hread := getByte_append (pre ++ (text ++ a :: trail)) post b
    have hwrite := setByte_append (pre ++ (text ++ a :: trail)) post b 0
    rw [hindex] at hread hwrite
    have ih := @ih (0 :: post) htrail.1
    rw [List.length_append, List.length_singleton, hsplit, ← Nat.add_assoc text.length, trimEnd,
      hread, ok_bind, if_pos htrail.2, hwrite, ok_bind]
    rw [show (pre ++ (text ++ a :: trail)) ++ 0 :: post =
      pre ++ (text ++ a :: (trail ++ 0 :: post)) by simp, ih, List.replicate_succ',
        List.append_assoc]
    rfl

/-- Nothing is left of a line exactly when it is all blanks. -/
theorem strip_eq_nil_iff : strip line = [] ↔ line.dropWhile isBlank = [] := by
  constructor
  · intro hstrip
    by_contra hne
    have hall := List.rdropWhile_eq_nil_iff.mp hstrip
    have hhead := List.head_dropWhile_not isBlank hne
    rw [hall _ (List.head_mem hne)] at hhead
    exact Bool.noConfusion hhead
  · intro hnil
    rw [strip, hnil]
    rfl

/-- Trimming in place keeps the length. -/
theorem trimmed_length (line : List Byte) : (trimmed line).length = line.length := by
  have hbody := congrArg List.length
    (List.rdropWhile_append_rtakeWhile (p := isBlank) (l := line.dropWhile isBlank))
  have hline := congrArg List.length (List.takeWhile_append_dropWhile (p := isBlank) (l := line))
  rw [List.length_append] at hbody hline
  unfold trimmed strip
  rw [List.length_append, List.length_append, List.length_replicate, hbody, hline]

/-- `str_trim` on a line. -/
theorem strTrim_eq (h0 : 0 ∉ line) (rest : List Byte) :
    strTrim (line ++ 0 :: rest) 0 = .ok (trimmed line ++ 0 :: rest, leading line) := by
  have hsplit : line ++ 0 :: rest =
      line.takeWhile isBlank ++ (line.dropWhile isBlank ++ 0 :: rest) := by
    rw [← List.append_assoc, List.takeWhile_append_dropWhile]
  have hscan : scan isBlank ((line ++ 0 :: rest).drop 0) = .ok (leading line) :=
    scan_takeWhile (by decide) line rest
  unfold strTrim
  rw [hscan, ok_bind]
  dsimp only
  rw [Nat.zero_add]
  rcases List.eq_nil_or_concat' (strip line) with hempty | ⟨text, a, htext⟩
  · have hbody := strip_eq_nil_iff.mp hempty
    have hread : getByte (line ++ 0 :: rest) (leading line) = .ok 0 := by
      rw [hsplit, hbody]
      exact getByte_append _ rest 0
    have htrimmed : trimmed line = line := by
      have hline := List.takeWhile_append_dropWhile (p := isBlank) (l := line)
      unfold trimmed
      rw [hempty, hbody]
      rw [hbody] at hline
      exact hline
    rw [hread, ok_bind, if_pos rfl, htrimmed]
    rfl
  · set trail := (line.dropWhile isBlank).rtakeWhile isBlank with htrail
    have hbody : line.dropWhile isBlank = text ++ a :: trail := by
      have hjoin := List.rdropWhile_append_rtakeWhile (p := isBlank) (l := line.dropWhile isBlank)
      change strip line ++ trail = _ at hjoin
      rw [← hjoin, htext, List.append_assoc]
      rfl
    have ha : isBlank a = false := by
      have hne : (line.dropWhile isBlank).rdropWhile isBlank ≠ [] := by
        change strip line ≠ []
        rw [htext]
        exact List.append_ne_nil_of_right_ne_nil _ (List.cons_ne_nil _ _)
      have hlast := List.rdropWhile_last_not isBlank _ hne
      have heq : ((line.dropWhile isBlank).rdropWhile isBlank).getLast hne = a := by
        have hget : (strip line).getLast? = some a := by rw [htext, List.getLast?_concat]
        exact Option.some.inj ((List.getLast?_eq_some_getLast hne).symm.trans hget)
      rw [heq] at hlast
      exact Bool.eq_false_of_not_eq_true hlast
    have htrailing : ∀ b ∈ trail, isBlank b = true := fun b hb => List.mem_rtakeWhile_imp hb
    have hnotzero : 0 ∉ text ++ a :: trail := by
      rw [← hbody]
      exact fun hm => h0 ((List.dropWhile_sublist _).mem hm)
    have hstring : IsString (text ++ a :: trail ++ 0 :: rest) (text ++ a :: trail) :=
      ⟨hnotzero, rest, rfl⟩
    have hdrop : (line ++ 0 :: rest).drop (leading line) = text ++ a :: trail ++ 0 :: rest := by
      rw [hsplit, hbody]
      exact List.drop_left
    have hread : ∃ b, getByte (line ++ 0 :: rest) (leading line) = .ok b ∧ b ≠ 0 := by
      obtain ⟨b, more, hcons⟩ := List.exists_cons_of_ne_nil
        (List.append_ne_nil_of_right_ne_nil text (List.cons_ne_nil a trail))
      refine ⟨b, ?_, ?_⟩
      · rw [hsplit, hbody, hcons]
        exact getByte_append _ _ b
      · rw [hcons] at hnotzero
        exact (List.ne_of_not_mem_cons hnotzero).symm
    obtain ⟨b, hb, hne⟩ := hread
    have hend := @trimEnd_eq text (line.takeWhile isBlank) trail (0 :: rest) a ha htrailing
    have hmem : line ++ 0 :: rest =
        line.takeWhile isBlank ++ (text ++ a :: (trail ++ 0 :: rest)) := by
      rw [hsplit, hbody, List.append_assoc, List.cons_append]
    rw [hb, ok_bind, if_neg hne, hdrop, strlen_eq hstring, ok_bind, hmem]
    rw [show (text ++ a :: trail).length - 1 = text.length + trail.length by
      rw [List.length_append, List.length_cons]; rfl]
    unfold leading
    rw [hend, ok_bind]
    unfold trimmed
    rw [htext, ← htrail]
    simp
    rfl

end Strip

/-! ### Cutting -/

/-- What separates words; a tab does not. -/
def isSep (b : Byte) : Bool := b = byte ' '

/-- A text with a NUL behind each of its first `n` words, in place of a space. -/
def cutWords : ℕ → List Byte → List Byte
  | 0, text => text
  | n + 1, text =>
      match text.dropWhile (! isSep ·) with
      | [] => text
      | _ :: rest => text.takeWhile (! isSep ·) ++
          0 :: (rest.takeWhile isSep ++ cutWords n (rest.dropWhile isSep))

section Cut

variable {text pre post word gap rest : List Byte} {args : List (Option ℕ)} {n i : ℕ}

/-- A text that does not begin with a space is empty, is one word, or is a word, a gap, and a text
of this kind. -/
inductive Spaced : List Byte → Prop
  | nil : Spaced []
  | word {word : List Byte} (hne : word ≠ []) (hword : ∀ b ∈ word, isSep b = false) : Spaced word
  | gap {word gap rest : List Byte} (hne : word ≠ []) (hword : ∀ b ∈ word, isSep b = false)
      (hgap : ∀ b ∈ gap, isSep b = true) (hrest : ∀ b ∈ rest.head?, isSep b = false)
      (h : Spaced rest) : Spaced (word ++ byte ' ' :: (gap ++ rest))

/-- By induction on the length. -/
theorem spaced_of_head (hstart : ∀ b ∈ text.head?, isSep b = false) : Spaced text := by
  induction hn : text.length using Nat.strongRecOn generalizing text with
  | ind n ih =>
    cases text with
    | nil => exact .nil
    | cons a text =>
      have ha : isSep a = false := hstart a rfl
      have hjoin := List.takeWhile_append_dropWhile (p := (! isSep ·)) (l := a :: text)
      have hword : ∀ b ∈ (a :: text).takeWhile (! isSep ·), isSep b = false :=
        fun b hb => by simpa using List.mem_takeWhile_imp hb
      have hne : (a :: text).takeWhile (! isSep ·) ≠ [] := by
        rw [List.takeWhile_cons_of_pos (by simp [ha])]
        exact List.cons_ne_nil _ _
      cases hdrop : (a :: text).dropWhile (! isSep ·) with
      | nil =>
        rw [hdrop, List.append_nil] at hjoin
        rw [← hjoin]
        exact .word hne hword
      | cons c rest =>
        have hc : c = byte ' ' := by
          have hhead := List.head?_dropWhile_not (! isSep ·) (a :: text)
          rw [hdrop, List.head?_cons] at hhead
          simpa [isSep] using hhead
        have hafter : ∀ b ∈ (rest.dropWhile isSep).head?, isSep b = false := by
          intro b hb
          have hhead := List.head?_dropWhile_not isSep rest
          rw [Option.mem_def.mp hb] at hhead
          exact hhead
        have hshort : (rest.dropWhile isSep).length < n := by
          have hlength := congrArg List.length hjoin
          have hle := (List.dropWhile_sublist isSep (l := rest)).length_le
          rw [hdrop, List.length_append, List.length_cons, hn] at hlength
          omega
        have hgap : ∀ b ∈ rest.takeWhile isSep, isSep b = true :=
          fun b hb => List.mem_takeWhile_imp hb
        have hspaced := Spaced.gap hne hword hgap hafter (ih _ hshort hafter rfl)
        rwa [List.takeWhile_append_dropWhile, ← hc, ← hdrop, hjoin] at hspaced

/-- A single word needs no cut. -/
theorem cutWords_word (hword : ∀ b ∈ word, isSep b = false) (n : ℕ) : cutWords n word = word := by
  have hdrop : word.dropWhile (! isSep ·) = [] :=
    List.dropWhile_eq_nil_iff.mpr fun b hb => by simp [hword b hb]
  cases n with
  | zero => rfl
  | succ n => rw [cutWords, hdrop]

/-- A word ends at the space behind it. -/
theorem takeWhile_word (hword : ∀ b ∈ word, isSep b = false) :
    (word ++ byte ' ' :: rest).takeWhile (! isSep ·) = word :=
  takeWhile_append_of_head hword fun b hb => by
    obtain rfl := Option.some.inj hb
    rfl

/-- A word in front of a gap gets its NUL, and the rest is cut as before. -/
theorem cutWords_gap (hword : ∀ b ∈ word, isSep b = false) (hgap : ∀ b ∈ gap, isSep b = true)
    (hrest : ∀ b ∈ rest.head?, isSep b = false) (n : ℕ) :
    cutWords (n + 1) (word ++ byte ' ' :: (gap ++ rest)) =
      word ++ 0 :: (gap ++ cutWords n rest) := by
  have hdrop : (word ++ byte ' ' :: (gap ++ rest)).dropWhile (! isSep ·) =
      byte ' ' :: (gap ++ rest) := by
    rw [List.dropWhile_append_of_pos fun b hb => by simp [hword b hb]]
    rfl
  have htail : rest.takeWhile isSep = [] ∧ rest.dropWhile isSep = rest := by
    cases rest with
    | nil => exact ⟨rfl, rfl⟩
    | cons b rest =>
      have hb := hrest b rfl
      exact ⟨List.takeWhile_cons_of_neg (by simp [hb]), List.dropWhile_cons_of_neg (by simp [hb])⟩
  rw [cutWords, hdrop]
  dsimp only
  rw [takeWhile_word hword, List.takeWhile_append_of_pos hgap, List.dropWhile_append_of_pos hgap,
    htail.1, htail.2, List.append_nil]

/-- Cutting in place keeps the length. -/
theorem cutWords_length (h : Spaced text) (n : ℕ) : (cutWords n text).length = text.length := by
  induction h generalizing n with
  | nil => rw [cutWords_word fun b hb => absurd hb List.not_mem_nil]
  | word hne hword => rw [cutWords_word hword]
  | gap hne hword hgap hrest h ih =>
    cases n with
    | zero => rfl
    | succ n =>
      rw [cutWords_gap hword hgap hrest, List.length_append, List.length_append, List.length_cons,
        List.length_cons, List.length_append, List.length_append, ih]

/-- The words of a text, counted from the index where it lies. -/
theorem wordsFrom_spaced (hne : word ≠ []) (hword : ∀ b ∈ word, isSep b = false)
    (hgap : ∀ b ∈ gap, isSep b = true) :
    wordsFrom isSep true i (word ++ byte ' ' :: (gap ++ rest)) =
      ⟨i, word⟩ :: wordsFrom isSep true (i + word.length + (gap.length + 1)) rest := by
  have hsep : ∀ b ∈ byte ' ' :: gap, isSep b = true := by
    rw [List.forall_mem_cons]
    exact ⟨rfl, hgap⟩
  rw [wordsFrom_word hne hword fun b hb => by
      obtain rfl := Option.some.inj hb
      rfl,
    ← List.cons_append, wordsFrom_gap hsep, List.length_cons]

/-- An argument is stored while there is room for it. -/
theorem storeArg_ok (hroom : args.length < maxCmdArgs + 1) (ptr : Option ℕ) :
    storeArg args ptr = .ok (args ++ [ptr]) := if_pos hroom

/-- At the end of the line the loop stops. -/
theorem parseFrom_end (n : ℕ) (pre post : List Byte) (args : List (Option ℕ)) :
    parseFrom n (pre ++ 0 :: post) pre.length args = .ok (pre ++ 0 :: post, args) := by
  unfold parseFrom
  rw [getByte_append, ok_bind, if_pos rfl]
  rfl

/-- The scan over a word, with the NUL as a second thing to stop at. -/
theorem scan_word (hword : ∀ b ∈ word, isSep b = false) (h0 : 0 ∉ word) {b : Byte}
    (hb : b = 0 ∨ b = byte ' ') (rest : List Byte) :
    scan (fun b => b ≠ 0 && b ≠ byte ' ') (word ++ b :: rest) = .ok word.length := by
  refine scan_append (fun a ha => ?_) ?_ rest
  · have hspace : a ≠ byte ' ' := by simpa [isSep] using hword a ha
    have hzero : a ≠ 0 := ne_of_mem_of_not_mem ha h0
    simpa [hspace] using hzero
  · rcases hb with rfl | rfl <;> decide

/-- With the array full the loop stops. -/
theorem parseFrom_full (pre text post : List Byte) (args : List (Option ℕ)) :
    parseFrom 0 (pre ++ (text ++ 0 :: post)) pre.length args =
      .ok (pre ++ (text ++ 0 :: post), args) := by
  have hread : ∃ b, getByte (pre ++ (text ++ 0 :: post)) pre.length = .ok b := by
    cases text with
    | nil => exact ⟨0, getByte_append pre post 0⟩
    | cons a text => exact ⟨a, getByte_append pre (text ++ 0 :: post) a⟩
  obtain ⟨b, hb⟩ := hread
  unfold parseFrom
  rw [hb, ok_bind]
  exact ite_self _

/-- The last word of a line. -/
theorem parseFrom_word (hne : word ≠ []) (hword : ∀ b ∈ word, isSep b = false) (h0 : 0 ∉ word)
    (hroom : args.length < maxCmdArgs + 1) :
    parseFrom (n + 1) (pre ++ (word ++ 0 :: post)) pre.length args =
      .ok (pre ++ (word ++ 0 :: post), args ++ [some pre.length]) := by
  obtain ⟨a, tail, hcons⟩ := List.exists_cons_of_ne_nil hne
  have hfirst : getByte (pre ++ (word ++ 0 :: post)) pre.length = .ok a := by
    rw [hcons]
    exact getByte_append pre _ a
  have ha : a ≠ 0 := by
    rw [hcons] at h0
    exact (List.ne_of_not_mem_cons h0).symm
  have hlast : getByte (pre ++ (word ++ 0 :: post)) (pre.length + word.length : ℕ) = .ok 0 := by
    rw [← List.append_assoc, ← List.length_append]
    exact getByte_append (pre ++ word) post 0
  have hblanks :
      scan (· = byte ' ') ((pre ++ (word ++ 0 :: post)).drop (pre.length + word.length)) =
      .ok 0 := by
    rw [← List.append_assoc, ← List.length_append, List.drop_left]
    rfl
  have hend := parseFrom_end n (pre ++ word) post (args ++ [some pre.length])
  rw [List.append_assoc, List.length_append] at hend
  unfold parseFrom
  rw [hfirst, ok_bind, if_neg ha]
  dsimp only
  rw [storeArg_ok hroom, ok_bind, List.drop_left, scan_word hword h0 (Or.inl rfl), ok_bind, hlast,
    ok_bind, if_neg (by decide), hblanks, ok_bind, Nat.add_zero, hend]

/-- A word with a gap behind it. -/
theorem parseFrom_gap (hne : word ≠ []) (hword : ∀ b ∈ word, isSep b = false) (h0 : 0 ∉ word)
    (hgap : ∀ b ∈ gap, isSep b = true) (hrest : ∀ b ∈ rest.head?, isSep b = false)
    (hroom : args.length < maxCmdArgs + 1) :
    parseFrom (n + 1) (pre ++ (word ++ byte ' ' :: (gap ++ (rest ++ 0 :: post)))) pre.length args =
      parseFrom n (pre ++ (word ++ 0 :: gap) ++ (rest ++ 0 :: post))
        (pre ++ (word ++ 0 :: gap)).length
        (args ++ [some pre.length]) := by
  obtain ⟨a, tail, hcons⟩ := List.exists_cons_of_ne_nil hne
  have hfirst : getByte (pre ++ (word ++ byte ' ' :: (gap ++ (rest ++ 0 :: post)))) pre.length =
      .ok a := by
    rw [hcons]
    exact getByte_append pre _ a
  have ha : a ≠ 0 := by
    rw [hcons] at h0
    exact (List.ne_of_not_mem_cons h0).symm
  have hspace := getByte_append (pre ++ word) (gap ++ (rest ++ 0 :: post)) (byte ' ')
  have hcut := setByte_append (pre ++ word) (gap ++ (rest ++ 0 :: post)) (byte ' ') 0
  rw [List.append_assoc, List.length_append] at hspace hcut
  have hblanks : scan (· = byte ' ') ((pre ++ word ++ 0 :: (gap ++ (rest ++ 0 :: post))).drop
      (pre.length + word.length + 1)) = .ok gap.length := by
    rw [← List.drop_drop, ← List.length_append, List.drop_left, List.drop_one, List.tail_cons]
    obtain ⟨b, more, hmore, hb⟩ : ∃ b more, rest ++ 0 :: post = b :: more ∧ isSep b = false := by
      cases rest with
      | nil => exact ⟨0, post, rfl, by decide⟩
      | cons b rest => exact ⟨b, rest ++ 0 :: post, rfl, hrest b rfl⟩
    rw [hmore]
    exact scan_append hgap hb more
  have hjoin : pre ++ word ++ 0 :: (gap ++ (rest ++ 0 :: post)) =
      pre ++ (word ++ 0 :: gap) ++ (rest ++ 0 :: post) := by
    rw [List.append_assoc, List.append_assoc, List.append_assoc, List.cons_append]
  have hindex : pre.length + word.length + 1 + gap.length = (pre ++ (word ++ 0 :: gap)).length := by
    rw [List.length_append, List.length_append, List.length_cons]
    omega
  rw [parseFrom, hfirst, ok_bind, if_neg ha]
  dsimp only
  rw [storeArg_ok hroom, ok_bind, List.drop_left, scan_word hword h0 (Or.inr rfl), ok_bind, hspace,
    ok_bind, if_pos rfl, hcut, ok_bind, hblanks, ok_bind, hjoin, hindex]

/-- The pointers that the loop stores are those of the first `n` words, and it cuts these off. -/
theorem parseFrom_eq (h : Spaced text) (h0 : 0 ∉ text) (hroom : args.length + n ≤ maxCmdArgs) :
    parseFrom n (pre ++ (text ++ 0 :: post)) pre.length args =
      .ok (pre ++ (cutWords n text ++ 0 :: post), args ++
        ((wordsFrom isSep true pre.length text).take n).map fun w => some w.start) := by
  induction h generalizing n pre args with
  | nil =>
    rw [cutWords_word fun b hb => absurd hb List.not_mem_nil, List.nil_append, parseFrom_end,
      wordsFrom, List.take_nil, List.map_nil, List.append_nil]
  | @word word hne hword =>
    cases n with
    | zero => rw [parseFrom_full, List.take_zero, List.map_nil, List.append_nil]; rfl
    | succ n =>
      rw [parseFrom_word hne hword h0 (by omega), cutWords_word hword, wordsFrom_single hne hword,
        List.take_succ_cons,
        List.take_nil]
      rfl
  | @gap word gap rest hne hword hgap hrest h ih =>
    cases n with
    | zero => rw [parseFrom_full, List.take_zero, List.map_nil, List.append_nil]; rfl
    | succ n =>
      have hzero : 0 ∉ word ∧ 0 ∉ rest := by
        refine ⟨fun hm => h0 (List.mem_append_left _ hm), fun hm => h0 ?_⟩
        exact List.mem_append_right _ (List.mem_cons_of_mem _ (List.mem_append_right _ hm))
      have ih := @ih (pre ++ (word ++ 0 :: gap)) (args ++ [some pre.length]) n hzero.2 (by
        rw [List.length_append, List.length_singleton]
        omega)
      have hindex : pre.length + word.length + (gap.length + 1) =
          (pre ++ (word ++ 0 :: gap)).length := by
        rw [List.length_append, List.length_append, List.length_cons]
        omega
      have hcmd : pre ++ (word ++ byte ' ' :: (gap ++ rest) ++ 0 :: post) =
          pre ++ (word ++ byte ' ' :: (gap ++ (rest ++ 0 :: post))) := by simp
      rw [hcmd, parseFrom_gap hne hword hzero.1 hgap hrest (by omega), ih,
        cutWords_gap hword hgap hrest, wordsFrom_spaced hne hword hgap, hindex, List.take_succ_cons,
        List.map_cons]
      simp

/-- Each of the first `n` words is then a string where it lies. -/
theorem cutWords_isString (h : Spaced text) (h0 : 0 ∉ text) {w : Word Byte}
    (hw : w ∈ (wordsFrom isSep true pre.length text).take n) :
    IsString ((pre ++ (cutWords n text ++ 0 :: post)).drop w.start) w.text := by
  induction h generalizing n pre with
  | nil =>
    rw [wordsFrom, List.take_nil] at hw
    exact absurd hw List.not_mem_nil
  | @word word hne hword =>
    rw [wordsFrom_single hne hword] at hw
    obtain rfl := List.mem_singleton.mp (List.mem_of_mem_take hw)
    rw [cutWords_word hword, List.drop_left]
    exact ⟨h0, post, rfl⟩
  | @gap word gap rest hne hword hgap hrest h ih =>
    cases n with
    | zero => exact absurd hw (by simp)
    | succ n =>
      have hzero : 0 ∉ word ∧ 0 ∉ rest := by
        refine ⟨fun hm => h0 (List.mem_append_left _ hm), fun hm => h0 ?_⟩
        exact List.mem_append_right _ (List.mem_cons_of_mem _ (List.mem_append_right _ hm))
      have hindex : pre.length + word.length + (gap.length + 1) =
          (pre ++ (word ++ 0 :: gap)).length := by
        rw [List.length_append, List.length_append, List.length_cons]
        omega
      rw [wordsFrom_spaced hne hword hgap, List.take_succ_cons, hindex] at hw
      rw [cutWords_gap hword hgap hrest]
      rcases List.mem_cons.mp hw with rfl | hw
      · rw [List.drop_left]
        exact ⟨hzero.1, gap ++ cutWords n rest ++ 0 :: post, by simp⟩
      · have ih := ih hzero.2 hw
        simpa using ih

end Cut

/-! ### The whole routine -/

/-- What `shell_parse` makes of a line with these words: `line'` is left of it, whatever lies behind
its NUL. -/
structure ParsesInto (line line' : List Byte) (words : List (Word Byte)) : Prop where
  /-- The words are the longest parts without a space, -/
  mem_iff : ∀ w, w ∈ words ↔ IsWord isSep (strip line) w
  /-- in their order; -/
  sorted : words.Pairwise (·.start < ·.start)
  length_eq : line'.length = line.length
  /-- the number of arguments, and the pointers to them with the `NULL` behind; -/
  result : ∀ rest, shellParse (line ++ 0 :: rest) = .ok (line' ++ 0 :: rest, min 16 words.length,
    if strip line = [] then [] else
      ((words.take 16).map fun w => some (leading line + w.start)) ++ [none])
  /-- the strings at the pointers. -/
  arguments : ∀ rest, ∀ w ∈ words.take 16, w.text ≠ [] ∧ byte ' ' ∉ w.text ∧
    IsString ((line' ++ 0 :: rest).drop (leading line + w.start)) w.text

section Line

variable {line : List Byte}

/-- Stripping leaves only characters of the line. -/
theorem strip_subset (line : List Byte) : strip line ⊆ line := fun _ hb =>
  (List.dropWhile_sublist _).mem ((List.rdropWhile_prefix isBlank _).subset hb)

/-- A stripped line does not begin with a separator. -/
theorem strip_head (line : List Byte) : ∀ b ∈ (strip line).head?, isSep b = false := by
  intro b hb
  obtain ⟨more, hmore⟩ := List.rdropWhile_prefix isBlank (line.dropWhile isBlank)
  have hhead := List.head?_dropWhile_not isBlank line
  rw [← hmore, List.head?_append, show (List.rdropWhile isBlank (line.dropWhile isBlank)).head? =
    some b from hb] at hhead
  exact decide_eq_false fun he => by
    rw [he] at hhead
    exact Bool.noConfusion hhead

/-- A run of NULs can be extended at either end. -/
theorem zeros_cons (k : ℕ) (rest : List Byte) :
    List.replicate k 0 ++ 0 :: rest = 0 :: (List.replicate k 0 ++ rest) := by
  rw [← List.singleton_append, ← List.append_assoc, ← List.replicate_succ', List.replicate_succ,
    List.cons_append]

/-- A line, its blanks trimmed, as the loop finds it. -/
theorem trimmed_append (line rest : List Byte) :
    trimmed line ++ 0 :: rest = line.takeWhile isBlank ++ (strip line ++
      0 :: (List.replicate ((line.dropWhile isBlank).rtakeWhile isBlank).length 0 ++ rest)) := by
  unfold trimmed
  rw [List.append_assoc, List.append_assoc, zeros_cons]

/-- What is left of a line: the blanks in front of it, its first words cut off, and NULs. -/
def parsedLine (line : List Byte) : List Byte :=
  line.takeWhile isBlank ++ (cutWords 16 (strip line) ++
    List.replicate ((line.dropWhile isBlank).rtakeWhile isBlank).length 0)

/-- The parsed line holds the words of the stripped line, each with its NUL. -/
theorem parsesInto_parsedLine (h0 : 0 ∉ line) :
    ParsesInto line (parsedLine line) (words isSep (strip line)) := by
  unfold parsedLine
  set blanks := line.takeWhile isBlank with hblanks
  set zeros := List.replicate ((line.dropWhile isBlank).rtakeWhile isBlank).length (0 : Byte)
    with hzeros
  have hspaced : Spaced (strip line) := spaced_of_head (strip_head line)
  have hstrip : 0 ∉ strip line := fun hm => h0 (strip_subset line hm)
  have hwords : wordsFrom isSep true blanks.length (strip line) =
      (words isSep (strip line)).map fun w => ⟨leading line + w.start, w.text⟩ :=
    wordsFrom_add isSep true 0 blanks.length (strip line)
  have hafter : ∀ rest, blanks ++ (cutWords 16 (strip line) ++ zeros) ++ 0 :: rest =
      blanks ++ (cutWords 16 (strip line) ++ 0 :: (zeros ++ rest)) := by
    intro rest
    rw [List.append_assoc, List.append_assoc, zeros_cons]
  refine ⟨fun w => mem_words_iff, words_sorted isSep _, ?_, fun rest => ?_, fun rest w hw => ?_⟩
  · have hlength := trimmed_length line
    unfold trimmed at hlength
    rw [List.length_append, List.length_append] at hlength ⊢
    rw [cutWords_length hspaced, hlength]
  · unfold shellParse
    rw [strTrim_eq h0, ok_bind]
    dsimp only
    rw [trimmed_append, hafter]
    by_cases hempty : strip line = []
    · have hread := getByte_append blanks (zeros ++ rest) 0
      rw [hempty, if_pos rfl]
      change (getByte (blanks ++ 0 :: (zeros ++ rest)) blanks.length >>= _) = _
      rw [hread, ok_bind, if_pos rfl]
      rfl
    · obtain ⟨b, text, htext⟩ := List.exists_cons_of_ne_nil hempty
      have hb : b ≠ 0 := by
        rw [htext] at hstrip
        exact (List.ne_of_not_mem_cons hstrip).symm
      have hread : getByte (blanks ++ (strip line ++ 0 :: (zeros ++ rest))) (leading line) =
          .ok b := by
        rw [htext]
        exact getByte_append blanks _ b
      have hloop := @parseFrom_eq (strip line) blanks (zeros ++ rest) [] maxCmdArgs hspaced hstrip
        (Nat.le_of_eq (Nat.zero_add _))
      rw [hread, ok_bind, if_neg hb, if_neg hempty]
      unfold leading
      rw [hloop, ok_bind]
      dsimp only
      have hargs : (((words isSep (strip line)).map fun w =>
          (⟨leading line + w.start, w.text⟩ : Word Byte)).take maxCmdArgs).map
            (fun w => some w.start) =
          ((words isSep (strip line)).take 16).map fun w => some (leading line + w.start) := by
        rw [← List.map_take, List.map_map]
        rfl
      have hcount : (((words isSep (strip line)).take 16).map
          fun w => some (leading line + w.start)).length =
            min 16 (words isSep (strip line)).length := by
        rw [List.length_map, List.length_take]
      rw [List.nil_append, hwords, hargs, storeArg_ok (by
        rw [hcount]
        exact Nat.lt_succ_of_le (Nat.min_le_left _ _)), ok_bind, hcount]
      rfl
  · have hmem : (⟨leading line + w.start, w.text⟩ : Word Byte) ∈
        (wordsFrom isSep true blanks.length (strip line)).take 16 := by
      rw [hwords, ← List.map_take]
      exact List.mem_map_of_mem hw
    obtain ⟨pre, post, -, -, hne, hword, -⟩ := mem_words_iff.mp (List.mem_of_mem_take hw)
    refine ⟨hne, fun hm => ?_, ?_⟩
    · have hsep := hword _ hm
      exact absurd hsep (by decide)
    · rw [hafter]
      exact cutWords_isString hspaced hstrip hmem

/-- The line is parsed into the words of the stripped line. -/
theorem shellParse_words (h0 : 0 ∉ line) :
    ∃ line', ParsesInto line line' (words isSep (strip line)) :=
  ⟨parsedLine line, parsesInto_parsedLine h0⟩

/-- Two words and a tab between them, which does not separate. -/
theorem shellParse_words_echo :
    ∃ line', ParsesInto (chars "\t echo a\tb  c ") line'
      (words isSep (strip (chars "\t echo a\tb  c "))) :=
  shellParse_words (by decide)

end Line

/-! ### The words as strings -/

/-- The words of a line. -/
def lineWords (line : List Byte) : List (List Byte) := (words isSep (strip line)).map Word.text

/-- Each argument points to its place in the line. -/
theorem argPointers_eq (cmd : List Byte) (starts : List ℕ) :
    argPointers cmd (starts.map some) = .ok (starts.map fun i => cmd.drop i) := by
  induction starts with
  | nil => rfl
  | cons i starts ih =>
    rw [List.map_cons, argPointers, ih]
    rfl

/-- There are as many words as the stripped line has. -/
theorem lineWords_length (line : List Byte) :
    (lineWords line).length = (words isSep (strip line)).length := List.length_map _

/-- A line without a word is empty but for blanks. -/
theorem lineWords_eq_nil_iff (line : List Byte) : lineWords line = [] ↔ strip line = [] := by
  unfold lineWords words
  rw [List.map_eq_nil_iff]
  cases h : strip line with
  | nil => exact iff_of_true rfl rfl
  | cons a text =>
    have ha : isSep a = false := strip_head line a (by rw [h]; rfl)
    refine iff_of_false ?_ (List.cons_ne_nil _ _)
    rw [wordsFrom, if_neg (by simp [ha]), if_pos rfl]
    exact List.cons_ne_nil _ _

end AuriOS
