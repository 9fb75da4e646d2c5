import Gcoms.ByteStrings

/-!
# JSON texts

The texts that a JSON serializer writes without blanks: decimal numbers, quoted
strings, arrays and objects. A writer is a function to texts. `Readable write`
says that a written value is determined by every text that starts with it and
goes on with a comma or a closing bracket, or ends; the rules build it up along
the grammar. Sizes are counted in bytes of UTF-8.
-/
namespace Gcoms.JsonTexts
open ByteCodec ByteStrings

abbrev Text := List Char

def bytes (t : Text) : Bytes := utf8 (String.ofList t)

def size (t : Text) : ℕ := (t.map Char.utf8Size).sum

theorem utf8Len_eq_size (t : Text) : String.utf8Len t = size t := by
  induction t with
  | nil => rfl
  | cons c t ih =>
      rw [String.utf8Len,ih]
      simp only [size,List.map_cons,List.sum_cons]
      omega

@[simp] theorem bytes_length (t : Text) : (bytes t).length = size t := by
  rw [bytes,utf8_length,String.utf8ByteSize_ofList,utf8Len_eq_size]

theorem bytes_injective : Function.Injective bytes := by
  intro s t h
  have htext : some (String.ofList s) = some (String.ofList t) := by
    rw [← fromUtf8_utf8,← fromUtf8_utf8]
    exact congrArg fromUtf8 h
  simpa using congrArg String.toList (Option.some.inj htext)

@[simp] theorem size_nil : size [] = 0 := rfl

@[simp] theorem size_cons (c : Char) (t : Text) : size (c::t) = c.utf8Size+size t := by
  simp [size]

@[simp] theorem size_append (s t : Text) : size (s++t) = size s+size t := by
  simp [size]

/-! ## Writers -/

def decimal (n : ℕ) : Text := Nat.toDigits 10 n

def boolean (b : Bool) : Text := if b then "true".toList else "false".toList

/-- The characters with an escape of their own. -/
def shortEscape : Char → Option Char
  | '"' => some '"'
  | '\\' => some '\\'
  | '\x08' => some 'b'
  | '\t' => some 't'
  | '\n' => some 'n'
  | '\x0c' => some 'f'
  | '\r' => some 'r'
  | _ => none

def escape (c : Char) : Text :=
  match shortEscape c with
  | some e => ['\\',e]
  | none =>
      if c.toNat < 32 then
        ['\\','u','0','0',Nat.digitChar (c.toNat/16),Nat.digitChar (c.toNat%16)]
      else [c]

def quoted (s : String) : Text := '"'::(s.toList.flatMap escape++['"'])

/-- The texts with commas between them. -/
def joined : List Text → Text
  | [] => []
  | [t] => t
  | t::u::rest => t++ ','::joined (u::rest)

def array {α : Type} (write : α → Text) (l : List α) : Text :=
  '['::(joined (l.map write)++[']'])

def member (key : String) (t : Text) : Text := quoted key++ ':'::t

def object (members : List (String × Text)) : Text :=
  '{'::(joined (members.map fun m => member m.1 m.2)++['}'])

/-! ## Reading back -/

def closing (c : Char) : Bool := c == ',' || c == ']' || c == '}'

def Closes (t : Text) : Prop := ∀ c ∈ t.head?, closing c = true

theorem closes_nil : Closes [] := by
  intro c hc
  simp at hc

theorem closes_cons {c : Char} {t : Text} (h : closing c = true) : Closes (c::t) := by
  intro d hd
  obtain rfl : c = d := by simpa using hd
  exact h

section Reading
variable {α β : Type}

structure Readable (write : α → Text) : Prop where
  starts : ∀ a, ∃ c t, write a = c::t ∧ closing c = false
  ends : ∀ {a b : α} {s t : Text}, Closes s → Closes t → write a++s = write b++t → a = b ∧ s = t

theorem Readable.injective {write : α → Text} (h : Readable write) : Function.Injective write := by
  intro a b hab
  exact (h.ends closes_nil closes_nil (congrArg (·++[]) hab)).1

theorem Readable.comp {write : α → Text} (h : Readable write) {f : β → α}
    (hf : Function.Injective f) : Readable fun b => write (f b) where
  starts b := h.starts (f b)
  ends hs ht heq := by
    obtain ⟨hab,hst⟩ := h.ends hs ht heq
    exact ⟨hf hab,hst⟩

/-! ### Numbers -/

theorem isDigit_of_mem_decimal {n : ℕ} {c : Char} (h : c ∈ decimal n) : c.isDigit = true :=
  Nat.isDigit_of_mem_toDigits (by decide) (by decide) h

theorem not_closing_of_isDigit {c : Char} (h : c.isDigit = true) : closing c = false := by
  by_contra hc
  simp only [closing,Bool.not_eq_false,Bool.or_eq_true,beq_iff_eq] at hc
  obtain (rfl | rfl) | rfl := hc
  · exact absurd h (by decide)
  · exact absurd h (by decide)
  · exact absurd h (by decide)

theorem takeWhile_decimal (n : ℕ) {s : Text} (hs : Closes s) :
    (decimal n++s).takeWhile Char.isDigit = decimal n := by
  rw [List.takeWhile_append_of_pos fun c hc => isDigit_of_mem_decimal hc]
  cases s with
  | nil => simp
  | cons c s =>
      have hdigit : c.isDigit = false := by
        by_contra h
        have hclosing := hs c rfl
        rw [not_closing_of_isDigit (Bool.not_eq_false _ ▸ h)] at hclosing
        exact absurd hclosing (by decide)
      simp [hdigit]

theorem readable_decimal : Readable decimal where
  starts n := by
    cases h : decimal n with
    | nil => exact absurd h Nat.toDigits_ne_nil
    | cons c t =>
        refine ⟨c,t,rfl,not_closing_of_isDigit (isDigit_of_mem_decimal (n := n) ?_)⟩
        rw [h]
        exact List.mem_cons_self
  ends {m n s t} hs ht heq := by
    have hdigits : decimal m = decimal n := by
      rw [← takeWhile_decimal m hs,heq,takeWhile_decimal n ht]
    rw [hdigits] at heq
    refine ⟨?_,List.append_cancel_left heq⟩
    have hvalue := congrArg (Nat.ofDigitChars 10 · 0) hdigits
    simpa only [decimal,Nat.ofDigitChars_toDigits (b := 10) (by decide) (by decide)] using hvalue

theorem readable_boolean : Readable boolean where
  starts b := by
    cases b with
    | false => exact ⟨'f',"alse".toList,by decide,by decide⟩
    | true => exact ⟨'t',"rue".toList,by decide,by decide⟩
  ends {a b s t} _ _ heq := by
    cases a <;> cases b <;> simp_all [boolean]

/-! ### Strings -/

theorem shortEscape_injective {c d e : Char} (hc : shortEscape c = some e)
    (hd : shortEscape d = some e) : c = d := by
  unfold shortEscape at hc hd
  split at hc <;> cases hc <;> split at hd <;> first | rfl | exact absurd hd (by decide)

theorem shortEscape_ne_u {c e : Char} (h : shortEscape c = some e) : e ≠ 'u' := by
  unfold shortEscape at h
  split at h <;> cases h <;> decide

theorem digitChar_injective : ∀ a < 16, ∀ b < 16, Nat.digitChar a = Nat.digitChar b → a = b := by
  decide

theorem shortEscape_backslash : shortEscape '\\' = some '\\' := by decide

theorem shortEscape_quote : shortEscape '"' = some '"' := by decide

theorem escape_append_inj {c d : Char} {s t : Text} (h : escape c++s = escape d++t) :
    c = d ∧ s = t := by
  unfold escape at h
  cases hc : shortEscape c with
  | some e =>
      cases hd : shortEscape d with
      | some e' =>
          simp only [hc,hd,List.cons_append,List.nil_append,List.cons.injEq,true_and] at h
          obtain ⟨rfl,hst⟩ := h
          exact ⟨shortEscape_injective hc hd,hst⟩
      | none =>
          simp only [hc,hd] at h
          split_ifs at h
          · simp only [List.cons_append,List.cons.injEq,true_and] at h
            exact absurd h.1 (shortEscape_ne_u hc)
          · simp only [List.cons_append,List.cons.injEq] at h
            rw [← h.1,shortEscape_backslash] at hd
            exact absurd hd (by simp)
  | none =>
      cases hd : shortEscape d with
      | some e' =>
          simp only [hc,hd] at h
          split_ifs at h
          · simp only [List.cons_append,List.cons.injEq,true_and] at h
            exact absurd h.1.symm (shortEscape_ne_u hd)
          · simp only [List.cons_append,List.cons.injEq] at h
            rw [h.1,shortEscape_backslash] at hc
            exact absurd hc (by simp)
      | none =>
          simp only [hc,hd] at h
          split_ifs at h with h₁ h₂ h₂
          · simp only [List.cons_append,List.nil_append,List.cons.injEq,true_and] at h
            have hhigh := digitChar_injective _ (by omega) _ (by omega) h.1
            have hlow := digitChar_injective _ (by omega) _ (by omega) h.2.1
            exact ⟨Char.toNat_inj.mp (by omega),h.2.2⟩
          · simp only [List.cons_append,List.cons.injEq] at h
            rw [← h.1,shortEscape_backslash] at hd
            exact absurd hd (by simp)
          · simp only [List.cons_append,List.cons.injEq] at h
            rw [h.1,shortEscape_backslash] at hc
            exact absurd hc (by simp)
          · simpa using h

theorem escape_ne_quote (c : Char) (s t : Text) : escape c++s ≠ '"'::t := by
  intro h
  unfold escape at h
  cases hc : shortEscape c with
  | some e => simp [hc] at h
  | none =>
      simp only [hc] at h
      split_ifs at h
      · simp at h
      · simp only [List.cons_append,List.cons.injEq] at h
        rw [h.1,shortEscape_quote] at hc
        exact absurd hc (by simp)

theorem escaped_append_inj : ∀ {cs ds s t : Text},
    cs.flatMap escape++ '"'::s = ds.flatMap escape++ '"'::t → cs = ds ∧ s = t := by
  intro cs
  induction cs with
  | nil =>
      intro ds s t h
      cases ds with
      | nil => simpa using h
      | cons d ds =>
          simp only [List.flatMap_nil,List.nil_append,List.flatMap_cons,List.append_assoc] at h
          exact absurd h.symm (escape_ne_quote d _ _)
  | cons c cs ih =>
      intro ds s t h
      cases ds with
      | nil =>
          simp only [List.flatMap_nil,List.nil_append,List.flatMap_cons,List.append_assoc] at h
          exact absurd h (escape_ne_quote c _ _)
      | cons d ds =>
          simp only [List.flatMap_cons,List.append_assoc] at h
          obtain ⟨rfl,hrest⟩ := escape_append_inj h
          obtain ⟨rfl,hst⟩ := ih hrest
          exact ⟨rfl,hst⟩

/-- A quoted string ends by itself. -/
theorem quoted_append_inj {a b : String} {s t : Text} (h : quoted a++s = quoted b++t) :
    a = b ∧ s = t := by
  simp only [quoted,List.cons_append,List.append_assoc,List.nil_append,List.cons.injEq,
    true_and] at h
  obtain ⟨hchars,hst⟩ := escaped_append_inj h
  exact ⟨String.toList_injective hchars,hst⟩

theorem readable_quoted : Readable quoted where
  starts s := ⟨'"',_,rfl,by decide⟩
  ends _ _ heq := quoted_append_inj heq

/-! ### Arrays -/

theorem Readable.joined {write : α → Text} (h : Readable write) : ∀ {l m : List α} {s t : Text},
    JsonTexts.joined (l.map write)++ ']'::s = JsonTexts.joined (m.map write)++ ']'::t →
      l = m ∧ s = t := by
  -- no element starts with the bracket that ends the array
  have hnil : ∀ (m : List α) (a : α) (s t : Text),
      ']'::s ≠ JsonTexts.joined ((a::m).map write)++ ']'::t := by
    intro m a s t heq
    obtain ⟨c,u,hu,hc⟩ := h.starts a
    have hhead : ∃ v, JsonTexts.joined ((a::m).map write) = c::v := by
      cases m with
      | nil => exact ⟨u,hu⟩
      | cons b m =>
          refine ⟨u++ ','::JsonTexts.joined ((b::m).map write),?_⟩
          simp only [List.map_cons,JsonTexts.joined,hu,List.cons_append]
    obtain ⟨v,hv⟩ := hhead
    rw [hv,List.cons_append,List.cons.injEq] at heq
    rw [← heq.1] at hc
    exact absurd hc (by decide)
  intro l
  induction l with
  | nil =>
      intro m s t heq
      cases m with
      | nil => simpa [JsonTexts.joined] using heq
      | cons b m => exact absurd heq (hnil m b s t)
  | cons a l ih =>
      intro m s t heq
      cases m with
      | nil => exact absurd heq.symm (hnil l a t s)
      | cons b m =>
          cases l with
          | nil =>
              cases m with
              | nil =>
                  obtain ⟨rfl,hst⟩ := h.ends (closes_cons rfl) (closes_cons rfl) heq
                  exact ⟨rfl,by simpa using hst⟩
              | cons b' m =>
                  simp only [List.map_cons,List.map_nil,JsonTexts.joined,List.append_assoc,
                    List.cons_append] at heq
                  have hst := (h.ends (closes_cons rfl) (closes_cons rfl) heq).2
                  exact absurd (List.cons.inj hst).1 (by decide)
          | cons a' l =>
              cases m with
              | nil =>
                  simp only [List.map_cons,List.map_nil,JsonTexts.joined,List.append_assoc,
                    List.cons_append] at heq
                  have hst := (h.ends (closes_cons rfl) (closes_cons rfl) heq).2
                  exact absurd (List.cons.inj hst).1 (by decide)
              | cons b' m =>
                  simp only [List.map_cons,JsonTexts.joined,List.append_assoc,
                    List.cons_append] at heq
                  obtain ⟨rfl,hrest⟩ := h.ends (closes_cons rfl) (closes_cons rfl) heq
                  obtain ⟨hlm,hst⟩ := ih (m := b'::m) (List.cons.inj hrest).2
                  exact ⟨congrArg (a::·) hlm,hst⟩

theorem Readable.array {write : α → Text} (h : Readable write) :
    Readable (JsonTexts.array write) where
  starts l := ⟨'[',_,rfl,by decide⟩
  ends _ _ heq := by
    simp only [JsonTexts.array,List.cons_append,List.append_assoc,List.nil_append,List.cons.injEq,
      true_and] at heq
    exact h.joined heq

/-! ### Objects -/

theorem Readable.member {write : α → Text} (h : Readable write) (key : String) :
    Readable fun a => JsonTexts.member key (write a) where
  starts a := ⟨'"',_,rfl,by decide⟩
  ends hs ht heq := by
    simp only [JsonTexts.member,List.append_assoc,List.cons_append] at heq
    exact h.ends hs ht (List.cons.inj (quoted_append_inj heq).2).2

theorem Readable.pair {write : α → Text} {write' : β → Text} (h : Readable write)
    (h' : Readable write') : Readable fun p : α × β => write p.1++ ','::write' p.2 where
  starts p := by
    obtain ⟨c,t,ht,hc⟩ := h.starts p.1
    exact ⟨c,_,by rw [ht,List.cons_append],hc⟩
  ends {a b s t} hs ht heq := by
    simp only [List.append_assoc,List.cons_append] at heq
    obtain ⟨h₁,hrest⟩ := h.ends (closes_cons rfl) (closes_cons rfl) heq
    obtain ⟨h₂,hst⟩ := h'.ends hs ht (List.cons.inj hrest).2
    exact ⟨Prod.ext h₁ h₂,hst⟩

theorem Readable.braces {write : α → Text} (h : Readable write) :
    Readable fun a => '{'::(write a++['}']) where
  starts a := ⟨'{',_,rfl,by decide⟩
  ends _ _ heq := by
    simp only [List.cons_append,List.append_assoc,List.nil_append,List.cons.injEq,true_and] at heq
    obtain ⟨hab,hst⟩ := h.ends (closes_cons rfl) (closes_cons rfl) heq
    exact ⟨hab,(List.cons.inj hst).2⟩

/-- Variants under different keys are told apart. -/
theorem Readable.tagged {write : α → Text} {write' : β → Text} (h : Readable write)
    (h' : Readable write') {key key' : String} (hkey : key ≠ key') :
    Readable (Sum.elim (fun a => object [(key,write a)]) fun b => object [(key',write' b)]) where
  starts a := by
    cases a with
    | inl a => exact ⟨'{',_,rfl,by decide⟩
    | inr b => exact ⟨'{',_,rfl,by decide⟩
  ends {a b s t} hs ht heq := by
    have hclash : ∀ {k k' : String} {u v : Text}, k ≠ k' →
        object [(k,u)]++s ≠ object [(k',v)]++t := by
      intro k k' u v hk heq
      simp only [object,List.map_cons,List.map_nil,JsonTexts.joined,JsonTexts.member,
        List.cons_append,List.append_assoc,List.cons.injEq,true_and] at heq
      exact hk (quoted_append_inj heq).1
    cases a with
    | inl a =>
        cases b with
        | inl b =>
            obtain ⟨rfl,hst⟩ := (h.member key).braces.ends hs ht heq
            exact ⟨rfl,hst⟩
        | inr b => exact absurd heq (hclash hkey)
    | inr a =>
        cases b with
        | inl b => exact absurd heq (hclash hkey.symm)
        | inr b =>
            obtain ⟨rfl,hst⟩ := (h'.member key').braces.ends hs ht heq
            exact ⟨rfl,hst⟩

/-- What is readable can be read: some function takes every written text back. -/
theorem Readable.exists_reader {write : α → Text} (h : Readable write) :
    ∃ read : Bytes → Option α, ∀ a, read (bytes (write a)) = some a := by
  have hinjective : Function.Injective fun a => bytes (write a) := bytes_injective.comp h.injective
  exact ⟨Function.partialInv _,Function.partialInv_left hinjective⟩

end Reading

/-! ## Sizes -/

theorem utf8Size_of_isDigit {c : Char} (h : c.isDigit = true) : c.utf8Size = 1 := by
  simp only [Char.isDigit,Bool.and_eq_true,decide_eq_true_eq] at h
  rw [Char.utf8Size,if_pos]
  exact UInt32.le_trans h.2 (by decide)

theorem size_decimal (n : ℕ) : size (decimal n) = (decimal n).length := by
  have hsize : ∀ t : Text, (∀ c ∈ t, c.isDigit = true) → size t = t.length := by
    intro t
    induction t with
    | nil => intro _; rfl
    | cons c t ih =>
        intro h
        rw [size_cons,utf8Size_of_isDigit (h c List.mem_cons_self),
          ih fun d hd => h d (List.mem_cons_of_mem c hd),List.length_cons]
        omega
  exact hsize _ fun c hc => isDigit_of_mem_decimal hc

theorem size_decimal_pos (n : ℕ) : 0 < size (decimal n) := by
  rw [size_decimal]
  exact List.length_pos_iff.mpr Nat.toDigits_ne_nil

theorem size_decimal_le_iff {n k : ℕ} (hk : 0 < k) : size (decimal n) ≤ k ↔ n < 10^k := by
  rw [size_decimal]
  exact Nat.length_toDigits_le_iff (by decide) hk

theorem size_decimal_mono {m n : ℕ} (h : m ≤ n) : size (decimal m) ≤ size (decimal n) := by
  rw [size_decimal_le_iff (size_decimal_pos n)]
  exact h.trans_lt ((size_decimal_le_iff (size_decimal_pos n)).mp le_rfl)

theorem size_decimal_succ (n : ℕ) : size (decimal (n+1)) ≤ size (decimal n)+1 := by
  rw [size_decimal_le_iff (Nat.succ_pos _),pow_succ]
  have h := (size_decimal_le_iff (size_decimal_pos n)).mp le_rfl
  omega

theorem size_joined (l : List Text) (h : l ≠ []) :
    size (joined l)+1 = (l.map fun t => size t+1).sum := by
  induction l with
  | nil => exact absurd rfl h
  | cons t l ih =>
      cases l with
      | nil => simp [joined]
      | cons u l =>
          have hrest := ih (by simp)
          simp only [joined,size_append,size_cons,List.map_cons,List.sum_cons] at hrest ⊢
          have hcomma : Char.utf8Size ',' = 1 := by decide
          omega

theorem size_joined_le {l m : List Text} (h : List.Forall₂ (fun s t => size s ≤ size t) l m) :
    size (joined l) ≤ size (joined m) := by
  have hsum : (l.map fun t => size t+1).sum ≤ (m.map fun t => size t+1).sum := by
    induction h with
    | nil => exact le_rfl
    | cons hst _ ih =>
        simp only [List.map_cons,List.sum_cons]
        omega
  cases h with
  | nil => exact le_rfl
  | @cons s t l m hst hrest =>
      have h₁ := size_joined (s::l) (List.cons_ne_nil s l)
      have h₂ := size_joined (t::m) (List.cons_ne_nil t m)
      omega

theorem size_joined_append (l m : List Text) : size (joined l) ≤ size (joined (l++m)) := by
  cases l with
  | nil => exact Nat.zero_le _
  | cons t l =>
      have h₁ := size_joined (t::l) (List.cons_ne_nil _ _)
      have h₂ := size_joined (t::l++m) (List.cons_ne_nil _ _)
      simp only [List.map_append,List.sum_append] at h₂
      omega

end Gcoms.JsonTexts
