import Kave.Utf8

/-! JSON texts, read as a decoder reads them into the fields of a record. A text is read over its characters: a string is at most
    as long as what it is read from, and as long only where nothing in it is escaped. -/

namespace Json

open Utf8

abbrev Text := List Rune

def text (s : String) : List UInt8 := s.toUTF8.data.toList

abbrev quote : Rune := .ascii 34 (by decide)

abbrev comma : Rune := .ascii 44 (by decide)

abbrev colon : Rune := .ascii 58 (by decide)

abbrev space : Rune := .ascii 32 (by decide)

abbrev openBrace : Rune := .ascii 123 (by decide)

abbrev closeBrace : Rune := .ascii 125 (by decide)

/-! ### Strings -/

/-- What a string literal is made of: characters, and the halves or wholes that are written by number. -/
inductive Piece
  | rune (r : Rune)
  | unit (u : Nat)

/-- The first number of a pair and the second one. -/
def Pair (high low : Nat) : Prop := (0xD800 ≤ high ∧ high ≤ 0xDBFF) ∧ 0xDC00 ≤ low ∧ low ≤ 0xDFFF

instance (high low : Nat) : Decidable (Pair high low) := inferInstanceAs (Decidable (_ ∧ _))

/-- The characters of a literal. A half without the other one is replaced. -/
def chars : List Piece → List Rune
  | [] => []
  | .rune r :: rest => r.read :: chars rest
  | .unit high :: .unit low :: rest =>
    if Pair high low then encode (0x10000 + (high - 0xD800) * 1024 + (low - 0xDC00)) :: chars rest
    else encode high :: chars (.unit low :: rest)
  | .unit u :: rest => encode u :: chars rest

def hexDigit : Rune → Option Nat
  | .ascii b _ =>
    if 48 ≤ b ∧ b ≤ 57 then some (b.toNat - 48)
    else if 97 ≤ b ∧ b ≤ 102 then some (b.toNat - 87)
    else if 65 ≤ b ∧ b ≤ 70 then some (b.toNat - 55)
    else none
  | _ => none

/-- The character behind a backslash, other than a number. -/
def escaped (r : Rune) : Option Rune :=
  if r.is 98 then some (.ascii 8 (by decide))
  else if r.is 102 then some (.ascii 12 (by decide))
  else if r.is 110 then some (.ascii 10 (by decide))
  else if r.is 114 then some (.ascii 13 (by decide))
  else if r.is 116 then some (.ascii 9 (by decide))
  else if r.is 92 || r.is 47 || r.is 34 then some r
  else none

def control : Rune → Bool
  | .ascii b _ => b < 0x20
  | _ => false

inductive Mode
  | plain
  | escape
  /-- so many digits follow the next one -/
  | hex (more value : Nat)

/-- The rest of a literal up to its closing quote. -/
def literal : Mode → Text → Option (List Piece × Text)
  | _, [] => none
  | .plain, r :: rest =>
    if r.is 34 then some ([],rest)
    else if r.is 92 then literal .escape rest
    else if control r then none
    else (literal .plain rest).map fun p => (.rune r :: p.1,p.2)
  | .escape, r :: rest =>
    if r.is 117 then literal (.hex 3 0) rest
    else (escaped r).bind fun c => (literal .plain rest).map fun p => (.rune c :: p.1,p.2)
  | .hex 0 value, r :: rest =>
    (hexDigit r).bind fun d => (literal .plain rest).map fun p => (.unit (16 * value + d) :: p.1,p.2)
  | .hex (more + 1) value, r :: rest => (hexDigit r).bind fun d => literal (.hex more (16 * value + d)) rest

/-- A string behind its opening quote. -/
def string (t : Text) : Option (List UInt8 × Text) :=
  (literal .plain t).map fun p => ((chars p.1).flatMap Rune.raw,p.2)

/-! ### Numbers -/

def isDigit (b : UInt8) : Bool := 48 ≤ b && b ≤ 57

def digits : Text → List UInt8 × Text
  | .ascii b small :: rest => if isDigit b then (b :: (digits rest).1,(digits rest).2) else ([],.ascii b small :: rest)
  | t => ([],t)

def someDigits (t : Text) : Option (List UInt8 × Text) := if (digits t).1 = [] then none else some (digits t)

/-- One of the characters, where it stands next. -/
def optional (these : List UInt8) : Text → List UInt8 × Text
  | r :: rest => if these.any r.is then (r.raw,rest) else ([],r :: rest)
  | [] => ([],[])

def fraction (t : Text) : Option (List UInt8 × Text) :=
  if (optional [46] t).1 = [] then some ([],t)
  else (someDigits (optional [46] t).2).map fun p => (46 :: p.1,p.2)

def exponent (t : Text) : Option (List UInt8 × Text) :=
  let e := optional [101,69] t
  let sign := optional [43,45] e.2
  if e.1 = [] then some ([],t) else (someDigits sign.2).map fun p => (e.1 ++ sign.1 ++ p.1,p.2)

/-- No digit follows a zero that comes first. -/
def number (t : Text) : Option (List UInt8 × Text) := do
  let sign := optional [45] t
  let whole ← someDigits sign.2
  if whole.1.head? = some 48 ∧ whole.1 ≠ [48] then none
  else
    let frac ← fraction whole.2
    let exp ← exponent frac.2
    some (sign.1 ++ whole.1 ++ frac.1 ++ exp.1,exp.2)

/-! ### Values -/

inductive Value
  | null
  | bool (b : Bool)
  | num (literal : List UInt8)
  | str (s : List UInt8)
  | arr (items : List Value)
  | obj (members : List (List UInt8 × Value))

def isSpace (r : Rune) : Bool := r.is 32 || r.is 9 || r.is 10 || r.is 13

/-- The next character that is not white space. -/
def token (t : Text) : Option (Rune × Text) :=
  match t.dropWhile isSpace with
  | [] => none
  | r :: rest => some (r,rest)

def word : List UInt8 → Text → Option Text
  | [], t => some t
  | _ :: _, [] => none
  | b :: w, r :: t => if r.is b then word w t else none

/-- A value that holds no other, from its first character on. -/
def scalar (r : Rune) (t : Text) : Option (Value × Text) :=
  if r.is 34 then (string t).map fun p => (.str p.1,p.2)
  else if r.is 116 then (word (text "rue") t).map fun t => (.bool true,t)
  else if r.is 102 then (word (text "alse") t).map fun t => (.bool false,t)
  else if r.is 110 then (word (text "ull") t).map fun t => (.null,t)
  else (number (r :: t)).map fun p => (.num p.1,p.2)

/-- What stands between commas, up to the closing character. -/
def items {α : Type} (item : Text → Option (α × Text)) (close : UInt8) : Nat → Bool → Text → Option (List α × Text)
  | 0, _, _ => none
  | n + 1, first, t => do
    let start ← token t
    if first && start.1.is close then some ([],start.2)
    else
      let a ← item t
      let next ← token a.2
      if next.1.is close then some ([a.1],next.2)
      else if next.1.is 44 then (items item close n false next.2).map fun p => (a.1 :: p.1,p.2)
      else none

def member (value : Text → Option (Value × Text)) (t : Text) : Option ((List UInt8 × Value) × Text) := do
  let quote ← token t
  if quote.1.is 34 then
    let key ← string quote.2
    let colon ← token key.2
    if colon.1.is 58 then (value colon.2).map fun p => ((key.1,p.1),p.2) else none
  else none

/-- The members of an object behind its opening brace. -/
def members (value : Text → Option (Value × Text)) : Nat → Bool → Text → Option (List (List UInt8 × Value) × Text) :=
  items (member value) 125

/-- A value, nested no deeper than that. -/
def value : Nat → Text → Option (Value × Text)
  | 0, t => (token t).bind fun p => scalar p.1 p.2
  | depth + 1, t => do
    let start ← token t
    if start.1.is 123 then
      (members (value depth) (start.2.length + 1) true start.2).map fun p => (.obj p.1,p.2)
    else if start.1.is 91 then
      (items (value depth) 93 (start.2.length + 1) true start.2).map fun p => (.arr p.1,p.2)
    else scalar start.1 start.2

def maxNestingDepth : Nat := 10000

def document (t : Text) : Option Value :=
  (value maxNestingDepth t).bind fun p => if token p.2 = none then some p.1 else none

def Valid (bs : List UInt8) : Prop := (document (runes bs)).isSome

instance (bs : List UInt8) : Decidable (Valid bs) := inferInstanceAs (Decidable (_ = true))

/-! ### Records -/

/-- The integer a literal stands for; none where it has a fraction or an exponent, or is too large. -/
def parseInt (literal : List UInt8) : Option Int64 :=
  let sign := literal.head? = some 45
  let ds := if sign then literal.tail else literal
  let n : Nat := Nat.ofDigits 10 (ds.reverse.map fun d => d.toNat - 48)
  let v : Int := if sign then -n else n
  if ds ≠ [] ∧ ds.all isDigit ∧ -2 ^ 63 ≤ v ∧ v < 2 ^ 63 then some (Int64.ofInt v) else none

/-- How a member is stored in a record; none where its value has another type. A null is not stored. -/
abbrev Setter (σ : Type) := Value → σ → Option σ

section
variable {σ : Type}

def intField (set : Int64 → σ → σ) : Setter σ
  | .null, s => some s
  | .num literal, s => (parseInt literal).map fun v => set v s
  | _, _ => none

def boolField (set : Bool → σ → σ) : Setter σ
  | .null, s => some s
  | .bool b, s => some (set b s)
  | _, _ => none

def strField (set : List UInt8 → σ → σ) : Setter σ
  | .null, s => some s
  | .str b, s => some (set b s)
  | _, _ => none

/-- Names are compared without case. Two characters that are not ASCII have the case of one that is. -/
def foldRune : Rune → List UInt8
  | .ascii b _ => [if 97 ≤ b ∧ b ≤ 122 then b - 32 else b]
  | .wide b more _ =>
    if b :: more = [0xC5,0xBF] then [83]
    else if b :: more = [0xE2,0x84,0xAA] then [75]
    else b :: more
  | .bad _ => Rune.replacement.raw

def foldName (name : List UInt8) : List UInt8 := (runes name).flatMap foldRune

/-- A member that no field is named for is left out. -/
def assign (fields : List (List UInt8 × Setter σ)) (s : σ) (m : List UInt8 × Value) : Option σ :=
  match fields.find? fun f => foldName f.1 = foldName m.1 with
  | none => some s
  | some f => f.2 m.2 s

def unmarshal (fields : List (List UInt8 × Setter σ)) (s : σ) (bs : List UInt8) : Option σ :=
  match document (runes bs) with
  | some .null => some s
  | some (.obj members) => members.foldlM (assign fields) s
  | _ => none

end

/-! ### Writing -/

def decimal (n : Nat) : List UInt8 := if n = 0 then [48] else (Nat.digits 10 n).reverse.map fun d => .ofNat (48 + d)

def formatInt (v : Int64) : List UInt8 := if v.toInt < 0 then 45 :: decimal v.toInt.natAbs else decimal v.toInt.natAbs

def formatBool (b : Bool) : List UInt8 := if b then text "true" else text "false"

/-! ### What a string is read from -/

/-- A character that stands for itself in a literal. -/
def unescaped (r : Rune) : Bool := !(r.is 34 || r.is 92 || control r)

/-- UTF-8 that is written in a literal as it is. -/
def Plain (s : List UInt8) : Prop := ∀ r ∈ runes s, r.read = r ∧ unescaped r

instance (s : List UInt8) : Decidable (Plain s) := inferInstanceAs (Decidable (∀ r ∈ runes s, _))

theorem read_of_mem_chars (ps : List Piece) : ∀ r ∈ chars ps, r.read = r := by
  fun_induction chars ps with
  | case1 => simp
  | case2 r rest step => exact List.forall_mem_cons.mpr ⟨r.read_read,step⟩
  | case3 high low rest pair step => exact List.forall_mem_cons.mpr ⟨read_encode _,step⟩
  | case4 high low rest single step => exact List.forall_mem_cons.mpr ⟨read_encode _,step⟩
  | case5 u rest last step => exact List.forall_mem_cons.mpr ⟨read_encode _,step⟩

theorem length_chars_le (ps : List Piece) : (chars ps).length ≤ ps.length := by
  fun_induction chars ps with
  | case1 => exact le_rfl
  | case2 r rest step => exact Nat.succ_le_succ step
  | case3 high low rest pair step => exact (Nat.succ_le_succ step).trans (Nat.le_succ _)
  | case4 high low rest single step => exact Nat.succ_le_succ step
  | case5 u rest last step => exact Nat.succ_le_succ step

theorem chars_map_rune (rs : List Rune) : chars (rs.map .rune) = rs.map Rune.read := by
  induction rs with
  | nil => rfl
  | cons r rs step => rw [List.map_cons,chars,step,List.map_cons]

theorem literal_append {rs : Text} (plain : ∀ r ∈ rs, unescaped r) (rest : Text) :
    literal .plain (rs ++ quote :: rest) = some (rs.map .rune,rest) := by
  induction rs with
  | nil => rfl
  | cons r rs step =>
    rw [List.forall_mem_cons] at plain
    have self := plain.1
    simp only [unescaped,Bool.not_eq_true',Bool.or_eq_false_iff] at self
    simp [literal,self,step plain.2]

variable {t rest : Text} {s : List UInt8} {ds : List UInt8} {r : Rune} {depth : Nat}

/-- A literal gives at most one character for each that it is written with, and fewer where something is escaped. -/
theorem literal_split {m : Mode} {ps : List Piece} (read : literal m t = some (ps,rest)) :
    ∃ content q, t = content ++ q :: rest ∧ q.is 34 ∧ ps.length ≤ content.length ∧
      (ps.length = content.length → m = .plain → ∀ r ∈ content, unescaped r) := by
  fun_induction literal m t generalizing ps with
  | case1 => cases read
  | case2 r t quote =>
    cases read
    exact ⟨[],r,rfl,quote,le_rfl,fun _ _ => by simp⟩
  | case3 r t noQuote backslash step =>
    obtain ⟨content,q,rfl,quote,most,_⟩ := step read
    exact ⟨r :: content,q,rfl,quote,most.trans (Nat.le_succ _),fun same => by simp at same; omega⟩
  | case4 => cases read
  | case5 r t noQuote noBackslash noControl step =>
    obtain ⟨⟨qs,after⟩,inner,same⟩ := Option.map_eq_some_iff.mp read
    cases same
    obtain ⟨content,q,rfl,quote,most,plain⟩ := step inner
    refine ⟨r :: content,q,rfl,quote,Nat.succ_le_succ most,fun same is => List.forall_mem_cons.mpr ⟨?_,?_⟩⟩
    · simp [unescaped,noQuote,noBackslash,noControl]
    · exact plain (Nat.succ_injective same) is
  | case6 r t u step =>
    obtain ⟨content,q,rfl,quote,most,_⟩ := step read
    exact ⟨r :: content,q,rfl,quote,most.trans (Nat.le_succ _),nofun⟩
  | case7 r t noU step =>
    obtain ⟨c,_,read⟩ := Option.bind_eq_some_iff.mp read
    obtain ⟨⟨qs,after⟩,inner,same⟩ := Option.map_eq_some_iff.mp read
    cases same
    obtain ⟨content,q,rfl,quote,most,_⟩ := step inner
    exact ⟨r :: content,q,rfl,quote,Nat.succ_le_succ most,nofun⟩
  | case8 value r t step =>
    obtain ⟨d,_,read⟩ := Option.bind_eq_some_iff.mp read
    obtain ⟨⟨qs,after⟩,inner,same⟩ := Option.map_eq_some_iff.mp read
    cases same
    obtain ⟨content,q,rfl,quote,most,_⟩ := step inner
    exact ⟨r :: content,q,rfl,quote,Nat.succ_le_succ most,nofun⟩
  | case9 more value r t step =>
    obtain ⟨d,_,read⟩ := Option.bind_eq_some_iff.mp read
    obtain ⟨content,q,rfl,quote,most,_⟩ := step d read
    exact ⟨r :: content,q,rfl,quote,most.trans (Nat.le_succ _),nofun⟩

theorem string_append (plain : Plain s) (rest : Text) : string (runes s ++ quote :: rest) = some (s,rest) := by
  have good : (runes s).map Rune.read = runes s :=
    (List.map_congr_left fun r member => (plain r member).1).trans (List.map_id _)
  rw [string,literal_append (fun r member => (plain r member).2),Option.map_some,chars_map_rune,good,flatMap_raw_runes]

theorem string_split (read : string t = some (s,rest)) :
    ∃ content q, t = content ++ q :: rest ∧ q.is 34 ∧ (runes s).length ≤ content.length ∧ (∀ r ∈ runes s, r.read = r) ∧
      ((runes s).length = content.length → ∀ r ∈ content, unescaped r) := by
  obtain ⟨⟨ps,after⟩,inner,same⟩ := Option.map_eq_some_iff.mp read
  cases same
  obtain ⟨content,q,split,quote,most,plain⟩ := literal_split inner
  rw [runes_flatMap_raw (read_of_mem_chars ps)]
  have fewer := length_chars_le ps
  exact ⟨content,q,split,quote,fewer.trans most,read_of_mem_chars ps,fun same => plain (by omega) rfl⟩

/-- A string that is read back from where it was written, up to a quote that is the last one, needs no escape. -/
theorem plain_of_string {after rest : Text} (last : ∀ r ∈ after, ¬ r.is 34)
    (read : string (runes s ++ quote :: after) = some (s,rest)) : Plain s := by
  obtain ⟨content,q,split,isQuote,most,good,plain⟩ := string_split read
  have same : content = runes s := by
    rcases List.append_eq_append_iff.mp split with ⟨more,rfl,later⟩ | ⟨more,whole,-⟩
    · cases more with
      | nil => exact List.append_nil _
      | cons r more =>
        rw [List.cons_append,List.cons.injEq] at later
        exact absurd isQuote (last q (later.2 ▸ List.mem_append_right more List.mem_cons_self))
    · have none : more = [] := List.length_eq_zero_iff.mp (by rw [whole,List.length_append] at most; omega)
      rw [whole,none,List.append_nil]
  rw [same] at plain
  exact fun r member => ⟨good r member,plain rfl r member⟩

theorem length_of_string (read : string t = some (s,rest)) :
    (runes s).length + 1 + rest.length ≤ t.length := by
  obtain ⟨content,q,rfl,_,most,_⟩ := string_split read
  rw [List.length_append,List.length_cons]
  omega

/-! ### Reading goes on -/

/-- Something is taken off a text whenever something is read. -/
def Shrinks {α : Type} (p : Text → Option (α × Text)) : Prop := ∀ t a rest, p t = some (a,rest) → rest.length < t.length

theorem token_shrinks : Shrinks token := by
  intro t r rest read
  have most : (t.dropWhile isSpace).length ≤ t.length := (List.dropWhile_sublist _).length_le
  unfold token at read
  split at read
  · cases read
  · next split =>
    cases read
    rw [split,List.length_cons] at most
    exact most

theorem string_shrinks : Shrinks string := fun t s rest read => by
  have := length_of_string read
  omega

theorem length_digits (t : Text) : (digits t).1.length + (digits t).2.length = t.length := by
  fun_induction digits t with
  | case1 b small rest digit step => simp only [List.length_cons]; omega
  | case2 => simp
  | case3 => simp

theorem someDigits_shrinks : Shrinks someDigits := by
  intro t ds rest read
  have all := length_digits t
  unfold someDigits at read
  split_ifs at read with none
  rw [Option.some_inj] at read
  rw [read] at all none
  exact all ▸ Nat.lt_add_of_pos_left (List.length_pos_iff.mpr none)

theorem length_optional (these : List UInt8) (t : Text) : (optional these t).2.length ≤ t.length := by
  fun_cases optional these t <;> simp

theorem length_of_fraction (read : fraction t = some (ds,rest)) : rest.length ≤ t.length := by
  unfold fraction at read
  split_ifs at read
  · cases read
    exact le_rfl
  · obtain ⟨⟨more,after⟩,inner,same⟩ := Option.map_eq_some_iff.mp read
    cases same
    exact (someDigits_shrinks _ _ _ inner).le.trans (length_optional _ t)

theorem length_of_exponent (read : exponent t = some (ds,rest)) : rest.length ≤ t.length := by
  simp only [exponent] at read
  split_ifs at read
  · cases read
    exact le_rfl
  · obtain ⟨⟨more,after⟩,inner,same⟩ := Option.map_eq_some_iff.mp read
    cases same
    exact (someDigits_shrinks _ _ _ inner).le.trans ((length_optional _ _).trans (length_optional _ t))

theorem number_shrinks : Shrinks number := by
  intro t ds rest read
  obtain ⟨⟨whole,t1⟩,first,read⟩ := Option.bind_eq_some_iff.mp read
  split_ifs at read
  obtain ⟨⟨frac,t2⟩,second,read⟩ := Option.bind_eq_some_iff.mp read
  obtain ⟨⟨exp,t3⟩,third,read⟩ := Option.bind_eq_some_iff.mp read
  cases read
  calc t3.length
    _ ≤ t2.length := length_of_exponent third
    _ ≤ t1.length := length_of_fraction second
    _ < (optional [45] t).2.length := someDigits_shrinks _ _ _ first
    _ ≤ t.length := length_optional [45] t

theorem length_of_word {w : List UInt8} (read : word w t = some rest) : rest.length ≤ t.length := by
  fun_induction word w t with
  | case1 t => cases read; exact le_rfl
  | case2 => cases read
  | case3 b w r t is step => exact (step read).trans (Nat.le_succ _)
  | case4 => cases read

theorem length_of_scalar {v : Value} (read : scalar r t = some (v,rest)) : rest.length ≤ t.length := by
  unfold scalar at read
  split_ifs at read <;> obtain ⟨p,inner,same⟩ := Option.map_eq_some_iff.mp read <;> cases same
  · exact (string_shrinks _ _ _ inner).le
  · exact length_of_word inner
  · exact length_of_word inner
  · exact length_of_word inner
  · exact Nat.le_of_lt_succ (number_shrinks _ _ _ inner)

section
variable {α : Type} {item : Text → Option (α × Text)} {close : UInt8}

theorem items_cases {n : Nat} {first : Bool} {t rest : Text} {as : List α} (read : items item close n first t = some (as,rest)) :
    (as = [] ∧ ∃ r, token t = some (r,rest)) ∨
      ∃ a t1 r t2, item t = some (a,t1) ∧ token t1 = some (r,t2) ∧
        (as = [a] ∧ rest = t2 ∨ ∃ k more, n = k + 1 ∧ items item close k false t2 = some (more,rest) ∧ as = a :: more) := by
  cases n with
  | zero => cases read
  | succ n =>
    obtain ⟨⟨r,t1⟩,start,read⟩ := Option.bind_eq_some_iff.mp read
    split_ifs at read
    · cases read
      exact .inl ⟨rfl,r,start⟩
    · obtain ⟨⟨a,t2⟩,one,read⟩ := Option.bind_eq_some_iff.mp read
      obtain ⟨⟨r2,t3⟩,next,read⟩ := Option.bind_eq_some_iff.mp read
      refine .inr ⟨a,t2,r2,t3,one,next,?_⟩
      split_ifs at read
      · cases read
        exact .inl ⟨rfl,rfl⟩
      · obtain ⟨⟨more,t4⟩,inner,same⟩ := Option.map_eq_some_iff.mp read
        cases same
        exact .inr ⟨n,more,rfl,inner,rfl⟩

theorem items_shrinks (shrinks : Shrinks item) (n : Nat) (first : Bool) : Shrinks (items item close n first) := by
  induction n generalizing first with
  | zero => exact nofun
  | succ n step =>
    intro t as rest read
    rcases items_cases read with ⟨-,r,last⟩ | ⟨a,t1,r,t2,one,next,⟨-,rfl⟩ | ⟨k,more,same,inner,-⟩⟩
    · exact token_shrinks _ _ _ last
    · exact (token_shrinks _ _ _ next).trans (shrinks _ _ _ one)
    · cases same
      exact (step false _ _ _ inner).trans ((token_shrinks _ _ _ next).trans (shrinks _ _ _ one))

theorem of_mem_items (shrinks : Shrinks item) {n : Nat} {first : Bool} {t rest : Text} {as : List α}
    (read : items item close n first t = some (as,rest)) {a : α} (listed : a ∈ as) :
    ∃ part after, item part = some (a,after) ∧ part.length ≤ t.length := by
  induction n generalizing first t as with
  | zero => cases read
  | succ n step =>
    rcases items_cases read with ⟨rfl,-⟩ | ⟨b,t1,r,t2,one,next,⟨rfl,-⟩ | ⟨k,more,same,inner,rfl⟩⟩
    · cases listed
    · cases List.mem_singleton.mp listed
      exact ⟨t,t1,one,le_rfl⟩
    · cases same
      rcases List.mem_cons.mp listed with rfl | later
      · exact ⟨t,t1,one,le_rfl⟩
      · obtain ⟨part,after,read,most⟩ := step inner later
        exact ⟨part,after,read,most.trans ((token_shrinks _ _ _ next).trans (shrinks _ _ _ one)).le⟩

theorem items_enough (shrinks : Shrinks item) {n m : Nat} {t : Text} (first : Bool) (enough : t.length < n) (too : t.length < m) :
    items item close n first t = items item close m first t := by
  induction n generalizing m first t with
  | zero => cases enough
  | succ n step =>
    obtain ⟨m,rfl⟩ := Nat.exists_eq_succ_of_ne_zero (Nat.ne_zero_of_lt too)
    refine Option.bind_congr fun start _ => if_congr Iff.rfl rfl (Option.bind_congr fun one item => Option.bind_congr fun next after => ?_)
    have fewer := (token_shrinks _ _ _ after).trans (shrinks _ _ _ item)
    rw [step (m := m) (t := next.2) false (by omega) (by omega)]

theorem member_shrinks {value : Text → Option (Value × Text)} (shrinks : Shrinks value) : Shrinks (member value) := by
  intro t m rest read
  obtain ⟨⟨r,t1⟩,start,read⟩ := Option.bind_eq_some_iff.mp read
  split_ifs at read
  obtain ⟨⟨key,t2⟩,name,read⟩ := Option.bind_eq_some_iff.mp read
  obtain ⟨⟨r2,t3⟩,colon,read⟩ := Option.bind_eq_some_iff.mp read
  split_ifs at read
  obtain ⟨⟨v,t4⟩,inner,same⟩ := Option.map_eq_some_iff.mp read
  cases same
  calc t4.length
    _ < t3.length := shrinks _ _ _ inner
    _ < t2.length := token_shrinks _ _ _ colon
    _ < t1.length := string_shrinks _ _ _ name
    _ < t.length := token_shrinks _ _ _ start

end

theorem value_shrinks (depth : Nat) : Shrinks (value depth) := by
  induction depth with
  | zero =>
    intro t v rest read
    obtain ⟨⟨r,t1⟩,start,read⟩ := Option.bind_eq_some_iff.mp read
    exact (length_of_scalar read).trans_lt (token_shrinks _ _ _ start)
  | succ depth step =>
    intro t v rest read
    obtain ⟨⟨r,t1⟩,start,read⟩ := Option.bind_eq_some_iff.mp read
    refine lt_of_le_of_lt ?_ (token_shrinks _ _ _ start)
    split_ifs at read
    · obtain ⟨p,inner,same⟩ := Option.map_eq_some_iff.mp read
      cases same
      exact (items_shrinks (member_shrinks step) _ _ _ _ _ inner).le
    · obtain ⟨p,inner,same⟩ := Option.map_eq_some_iff.mp read
      cases same
      exact (items_shrinks step _ _ _ _ _ inner).le
    · exact length_of_scalar read

theorem length_of_str (read : value depth t = some (.str s,rest)) :
    (runes s).length + 2 ≤ t.length := by
  have scalar_case : ∃ r t1, token t = some (r,t1) ∧ scalar r t1 = some (.str s,rest) := by
    cases depth with
    | zero =>
      obtain ⟨⟨r,t1⟩,start,read⟩ := Option.bind_eq_some_iff.mp read
      exact ⟨r,t1,start,read⟩
    | succ depth =>
      obtain ⟨⟨r,t1⟩,start,read⟩ := Option.bind_eq_some_iff.mp read
      split_ifs at read
      · obtain ⟨p,_,same⟩ := Option.map_eq_some_iff.mp read
        cases same
      · obtain ⟨p,_,same⟩ := Option.map_eq_some_iff.mp read
        cases same
      · exact ⟨r,t1,start,read⟩
  obtain ⟨r,t1,start,read⟩ := scalar_case
  have fewer := token_shrinks _ _ _ start
  unfold scalar at read
  split_ifs at read <;> obtain ⟨p,inner,same⟩ := Option.map_eq_some_iff.mp read <;> cases same
  have := length_of_string inner
  omega

theorem length_of_str_member {key s : List UInt8}
    (read : member (value depth) t = some ((key,.str s),rest)) : (runes s).length + 5 ≤ t.length := by
  obtain ⟨⟨r,t1⟩,start,read⟩ := Option.bind_eq_some_iff.mp read
  split_ifs at read
  obtain ⟨⟨name,t2⟩,inside,read⟩ := Option.bind_eq_some_iff.mp read
  obtain ⟨⟨r2,t3⟩,colon,read⟩ := Option.bind_eq_some_iff.mp read
  split_ifs at read
  obtain ⟨⟨v,t4⟩,inner,same⟩ := Option.map_eq_some_iff.mp read
  cases same
  calc (runes s).length + 5
    _ ≤ t3.length + 3 := Nat.add_le_add_right (length_of_str inner) 3
    _ ≤ t2.length + 2 := Nat.add_le_add_right (token_shrinks _ _ _ colon) 2
    _ ≤ t1.length + 1 := Nat.add_le_add_right (string_shrinks _ _ _ inside) 1
    _ ≤ t.length := token_shrinks _ _ _ start

/-! ### Numbers are read as they are written -/

theorem small_of_isDigit {b : UInt8} (digit : isDigit b) : b < 0x80 := by
  simp only [isDigit,Bool.and_eq_true,decide_eq_true_eq] at digit
  exact UInt8.lt_of_le_of_lt digit.2 (by decide)

/-- The character is no part of a number. -/
def Stops (r : Rune) : Prop := ∀ b, isDigit b ∨ b ∈ [46,101,69] → ¬ r.is b

theorem digits_stop (stops : Stops r) (rest : Text) : digits (r :: rest) = ([],r :: rest) := by
  cases r with
  | ascii b small =>
    have no : ¬ isDigit b := fun digit => stops b (.inl digit) (by simp [Rune.is])
    rw [digits,if_neg no]
  | wide => rfl
  | bad => rfl

theorem digits_append (all : ∀ d ∈ ds, isDigit d) (stops : Stops r) (rest : Text) :
    digits (runes ds ++ r :: rest) = (ds,r :: rest) := by
  induction ds with
  | nil => exact digits_stop stops rest
  | cons d ds step =>
    rw [List.forall_mem_cons] at all
    rw [runes_ascii (small_of_isDigit all.1),List.cons_append,digits,if_pos all.1,step all.2]

theorem optional_of_not {these : List UInt8} (no : ∀ b ∈ these, ¬ r.is b) (rest : Text) :
    optional these (r :: rest) = ([],r :: rest) := by
  rw [optional,if_neg]
  simpa using no

theorem number_append (all : ∀ d ∈ ds, isDigit d) (some_ : ds ≠ []) (shortest : ds.head? = some 48 → ds = [48])
    (negative : Bool) (stops : Stops r) (rest : Text) :
    number (runes (if negative then 45 :: ds else ds) ++ r :: rest) = some (if negative then 45 :: ds else ds,r :: rest) := by
  have signed : optional [45] (runes (if negative then 45 :: ds else ds) ++ r :: rest) =
      (if negative then [45] else [],runes ds ++ r :: rest) := by
    cases negative with
    | true => rfl
    | false =>
      obtain ⟨d,more,rfl⟩ := List.exists_cons_of_ne_nil some_
      have digit := all d List.mem_cons_self
      simp only [Bool.false_eq_true,if_false,runes_ascii (small_of_isDigit digit),List.cons_append]
      refine optional_of_not ?_ _
      rintro b only is
      simp_all [Rune.is,isDigit]
  have whole : someDigits (runes ds ++ r :: rest) = some (ds,r :: rest) := by
    rw [someDigits,digits_append all stops,if_neg some_]
  have noFraction : fraction (r :: rest) = some ([],r :: rest) := by
    rw [fraction,optional_of_not,if_pos rfl]
    exact fun b only => stops b (.inr (by simp_all))
  have noExponent : exponent (r :: rest) = some ([],r :: rest) := by
    rw [exponent,optional_of_not,if_pos rfl]
    exact fun b only => stops b (.inr (by simp_all))
  have zero : ¬ (ds.head? = some 48 ∧ ds ≠ [48]) := fun both => both.2 (shortest both.1)
  simp only [number,signed,whole,Option.bind_eq_bind,Option.bind_some,if_neg zero,noFraction,noExponent,List.append_nil]
  cases negative <;> rfl

theorem isDigit_ofNat {d : Nat} (small : d < 10) : isDigit (.ofNat (48 + d)) := by
  interval_cases d <;> rfl

theorem isDigit_of_mem_decimal {n : Nat} {b : UInt8} (member : b ∈ decimal n) : isDigit b := by
  unfold decimal at member
  split_ifs at member
  · rw [List.mem_singleton.mp member]
    rfl
  · obtain ⟨d,listed,rfl⟩ := List.mem_map.mp member
    exact isDigit_ofNat (Nat.digits_lt_base (by decide) (List.mem_reverse.mp listed))

theorem decimal_ne_nil (n : Nat) : decimal n ≠ [] := by
  unfold decimal
  split_ifs with zero
  · exact List.cons_ne_nil _ _
  · simpa [Nat.digits_eq_nil_iff_eq_zero] using zero

theorem decimal_shortest (n : Nat) (zero : (decimal n).head? = some 48) : decimal n = [48] := by
  unfold decimal at zero ⊢
  split_ifs at zero ⊢ with none
  · rfl
  · exfalso
    have last := Nat.getLast_digit_ne_zero 10 none
    rw [List.head?_map,List.head?_reverse,List.getLast?_eq_some_getLast (Nat.digits_ne_nil_iff_ne_zero.mpr none),Option.map_some,
      Option.some_inj] at zero
    have small := Nat.digits_lt_base (b := 10) (by decide) (List.getLast_mem (Nat.digits_ne_nil_iff_ne_zero.mpr none))
    generalize (Nat.digits 10 n).getLast _ = d at *
    interval_cases d <;> simp_all

theorem ofDigits_decimal (n : Nat) : Nat.ofDigits 10 ((decimal n).reverse.map fun d => d.toNat - 48) = n := by
  unfold decimal
  split_ifs with zero
  · rw [zero]; rfl
  · rw [← List.map_reverse,List.reverse_reverse,List.map_map]
    have same : (Nat.digits 10 n).map ((fun d : UInt8 => d.toNat - 48) ∘ fun d => .ofNat (48 + d)) = Nat.digits 10 n := by
      refine (List.map_congr_left fun d listed => ?_).trans (List.map_id _)
      have small := Nat.digits_lt_base (by decide) listed
      interval_cases d <;> rfl
    rw [same,Nat.ofDigits_digits]

theorem formatInt_eq (v : Int64) : formatInt v = if decide (v.toInt < 0) then 45 :: decimal v.toInt.natAbs else decimal v.toInt.natAbs := by
  simp [formatInt]

theorem number_formatInt (v : Int64) (stops : Stops r) (rest : Text) :
    number (runes (formatInt v) ++ r :: rest) = some (formatInt v,r :: rest) := by
  rw [formatInt_eq]
  exact number_append (fun _ => isDigit_of_mem_decimal) (decimal_ne_nil _) (decimal_shortest _) _ stops rest

theorem parseInt_formatInt (v : Int64) : parseInt (formatInt v) = some v := by
  have digit : (decimal v.toInt.natAbs).all isDigit := List.all_eq_true.mpr fun b => isDigit_of_mem_decimal
  have range : -2 ^ 63 ≤ v.toInt ∧ v.toInt < 2 ^ 63 := ⟨v.le_toInt,v.toInt_lt⟩
  unfold formatInt
  split_ifs with negative
  · have abs : -(v.toInt.natAbs : Int) = v.toInt := by omega
    simp only [parseInt,List.head?_cons,if_true,List.tail_cons,ofDigits_decimal,abs,Int64.ofInt_toInt]
    exact if_pos ⟨decimal_ne_nil _,digit,range⟩
  · have abs : (v.toInt.natAbs : Int) = v.toInt := by omega
    have unsigned : (decimal v.toInt.natAbs).head? ≠ some 45 := fun first => by
      cases isDigit_of_mem_decimal (List.mem_of_head? first)
    simp only [parseInt,unsigned,if_false,ofDigits_decimal,abs,Int64.ofInt_toInt]
    exact if_pos ⟨decimal_ne_nil _,digit,range⟩

/-! ### Reading step by step -/

theorem token_cons (visible : isSpace r = false) (t : Text) : token (r :: t) = some (r,t) := by
  rw [token,List.dropWhile_cons_of_neg (by simp [visible])]

theorem token_quote (t : Text) : token (quote :: t) = some (quote,t) := token_cons rfl t

theorem token_space (t : Text) : token (space :: t) = token t := by
  rw [token,List.dropWhile_cons_of_pos rfl,token]

theorem value_space (t : Text) (depth : Nat) : value depth (space :: t) = value depth t := by
  cases depth <;> simp only [value,token_space]

theorem value_scalar (start : token t = some (r,rest)) (noObject : ¬ r.is 123) (noArray : ¬ r.is 91)
    (depth : Nat) : value depth t = scalar r rest := by
  cases depth <;> simp [value,start,noObject,noArray]

theorem value_string (t : Text) (depth : Nat) : value depth (quote :: t) = (string t).map fun p => (.str p.1,p.2) :=
  value_scalar (token_quote t) nofun nofun depth

theorem value_formatInt (v : Int64) (stops : Stops r) (rest : Text) (depth : Nat) :
    value depth (runes (formatInt v) ++ r :: rest) = some (.num (formatInt v),r :: rest) := by
  -- A sign or a digit comes first, and no other value starts with either.
  obtain ⟨b,more,same,first⟩ : ∃ b more, formatInt v = b :: more ∧ (b = 45 ∨ isDigit b) := by
    obtain ⟨d,ds,split⟩ := List.exists_cons_of_ne_nil (decimal_ne_nil v.toInt.natAbs)
    have digit : isDigit d := isDigit_of_mem_decimal (n := v.toInt.natAbs) (split ▸ List.mem_cons_self)
    unfold formatInt
    split_ifs
    · exact ⟨45,_,rfl,.inl rfl⟩
    · exact ⟨d,ds,split,.inr digit⟩
  have other : ∀ c ∈ [32,9,10,13,123,91,34,116,102,110], b ≠ c := by
    rintro c listed rfl
    rcases first with rfl | digit
    · revert listed
      decide
    · fin_cases listed <;> cases digit
  have small : b < 0x80 := first.elim (fun same => same ▸ by decide) small_of_isDigit
  have read := number_formatInt v stops rest
  simp only [List.forall_mem_cons] at other
  rw [same,runes_ascii small,List.cons_append] at read ⊢
  rw [value_scalar (token_cons (by simp [isSpace,Rune.is,other]) _) (by simp [Rune.is,other]) (by simp [Rune.is,other])]
  simp [scalar,Rune.is,other,read]

theorem value_formatBool (b : Bool) (rest : Text) (depth : Nat) :
    value depth (runes (formatBool b) ++ rest) = some (.bool b,rest) := by
  cases b with
  | true =>
    have start : token (runes (formatBool true) ++ rest) = some (.ascii 116 (by decide),runes (text "rue") ++ rest) := rfl
    exact value_scalar start nofun nofun depth
  | false =>
    have start : token (runes (formatBool false) ++ rest) = some (.ascii 102 (by decide),runes (text "alse") ++ rest) := rfl
    exact value_scalar start nofun nofun depth

theorem member_append {key : List UInt8} (plain : Plain key) {t u : Text} (starts : token t = some (quote,runes key ++ quote :: colon :: u))
    (value : Text → Option (Value × Text)) : member value t = (value u).map fun p => ((key,p.1),p.2) := by
  have next : token (colon :: u) = some (colon,u) := token_cons rfl u
  simp only [member,starts,Option.bind_eq_bind,Option.bind_some,string_append plain,next]
  rfl

theorem members_append {key : List UInt8} (plain : Plain key) {t u rest after : Text} {v : Value}
    (starts : token t = some (quote,runes key ++ quote :: colon :: u)) (read : value depth u = some (v,rest))
    (next : token rest = some (r,after)) (n : Nat) (first : Bool) :
    members (value depth) (n + 1) first t =
      if r.is 125 then some ([(key,v)],after)
      else if r.is 44 then (members (value depth) n false after).map fun p => ((key,v) :: p.1,p.2)
      else none := by
  have one := member_append plain starts (value depth)
  rw [read,Option.map_some] at one
  have opened : quote.is 125 = false := rfl
  simp only [members,items,starts,opened,Bool.and_false,Bool.false_eq_true,if_false,one,next,Option.bind_eq_bind,Option.bind_some]

theorem value_object (t : Text) (depth : Nat) : value (depth + 1) (openBrace :: t) =
    (members (value depth) (t.length + 1) true t).map fun p => (.obj p.1,p.2) := by
  have start : token (openBrace :: t) = some (openBrace,t) := token_cons rfl t
  rw [value,start]
  rfl

theorem document_object {t : Text} {n : Nat} (enough : t.length < n) : document (openBrace :: t) =
    (members (value 9999) n true t).bind fun p => if token p.2 = none then some (.obj p.1) else none := by
  have same : members (value 9999) (t.length + 1) true t = members (value 9999) n true t :=
    items_enough (member_shrinks (value_shrinks 9999)) true (Nat.lt_succ_self _) enough
  rw [document,show maxNestingDepth = 9999 + 1 from rfl,value_object,same,Option.bind_map]
  rfl

/-! ### The fields of a record -/

section
variable {σ : Type}

theorem intField_cases {set : Int64 → σ → σ} {v : Value} {s s' : σ} (stored : intField set v s = some s') :
    s' = s ∨ ∃ n, s' = set n s := by
  unfold intField at stored
  split at stored
  · exact .inl (Option.some_inj.mp stored).symm
  · obtain ⟨n,-,same⟩ := Option.map_eq_some_iff.mp stored
    exact .inr ⟨n,same.symm⟩
  · cases stored

theorem boolField_cases {set : Bool → σ → σ} {v : Value} {s s' : σ} (stored : boolField set v s = some s') :
    s' = s ∨ ∃ b, s' = set b s := by
  unfold boolField at stored
  split at stored
  · exact .inl (Option.some_inj.mp stored).symm
  · exact .inr ⟨_,(Option.some_inj.mp stored).symm⟩
  · cases stored

theorem strField_cases {set : List UInt8 → σ → σ} {v : Value} {s s' : σ} (stored : strField set v s = some s') :
    s' = s ∨ ∃ b, v = .str b ∧ s' = set b s := by
  unfold strField at stored
  split at stored
  · exact .inl (Option.some_inj.mp stored).symm
  · exact .inr ⟨_,rfl,(Option.some_inj.mp stored).symm⟩
  · cases stored

theorem valid_of_unmarshal {fields : List (List UInt8 × Setter σ)} {s s' : σ} {bs : List UInt8}
    (read : unmarshal fields s bs = some s') : Valid bs := by
  unfold unmarshal at read
  unfold Valid
  cases parsed : document (runes bs) with
  | none =>
    rw [parsed] at read
    cases read
  | some v => rfl

theorem of_foldlM_assign {fields : List (List UInt8 × Setter σ)} {field : σ → List UInt8}
    (stored : ∀ f ∈ fields, ∀ v s s', f.2 v s = some s' → field s' = field s ∨ v = .str (field s'))
    {members : List (List UInt8 × Value)} {s s' : σ} (read : members.foldlM (assign fields) s = some s') :
    field s' = field s ∨ ∃ key, (key,.str (field s')) ∈ members := by
  induction members generalizing s with
  | nil =>
    cases read
    exact .inl rfl
  | cons m members step =>
    obtain ⟨s1,first,read⟩ := Option.bind_eq_some_iff.mp read
    rcases step read with same | ⟨key,listed⟩
    · have one : field s1 = field s ∨ m.2 = .str (field s1) := by
        unfold assign at first
        split at first
        · cases first
          exact .inl rfl
        · next f found => exact stored f (List.mem_of_find?_eq_some found) _ _ _ first
      rcases one with same' | str
      · exact .inl (same.trans same')
      · exact .inr ⟨m.1,by rw [same,← str]; exact List.mem_cons_self⟩
    · exact .inr ⟨key,List.mem_cons_of_mem _ listed⟩

end

end Json
