import Workflow.Proofs.Json.Numeral
import Workflow.Proofs.Json.Tokens

/-!
# Reading printed values

A printed value is cut into the tokens of what it is written as, and this stands for the value
again, unless more containers are open at once than the reader allows.  A double is printed with
the fewest digits that name it, but read by scaling, so it may be read as a neighbour; values are
exact when this does not happen.
-/

namespace Workflow
namespace Json

/-!
# Exact values
-/

/-- A value that is read from its own text. -/
def ReadsBack (v : Json) : Prop :=
  parse? v.pretty = some v

mutual

/-- Every integer fits the integers of a document, and every double is read from its text. -/
def Exact : Json -> Prop
  | int n => fitsInteger n
  | real x => (real x).ReadsBack
  | arr items => ExactItems items
  | obj members => ExactMembers members
  | _ => True

def ExactItems : List Json -> Prop
  | [] => True
  | v :: rest => Exact v ∧ ExactItems rest

def ExactMembers : List (String × Json) -> Prop
  | [] => True
  | (_, v) :: rest => Exact v ∧ ExactMembers rest

end

/-!
# What a value is written as
-/

/-- Control characters without a short escape are written by their code. -/
def pieceOf (c : Char) : Piece :=
  if c.toNat < 0x20 && !(['\x08', '\x0c', '\n', '\r', '\t'].contains c) then .code c.toNat
  else .char c

def piecesOf (s : String) : List Piece :=
  s.toList.map pieceOf

mutual

def written : Json -> Written
  | null => .null
  | bool b => .bool b
  | int n => (scalar? (writeInt n)).getD .null
  | real x => (scalar? (writeDouble x)).getD .null
  | str s => .text (piecesOf s)
  | arr items => .arr (writtenItems items)
  | obj members => .obj (writtenMembers members)

def writtenItems : List Json -> List Written
  | [] => []
  | v :: rest => written v :: writtenItems rest

def writtenMembers : List (String × Json) -> List (List Piece × Written)
  | [] => []
  | (k, v) :: rest => (piecesOf k, written v) :: writtenMembers rest

end

/-!
# Cutting characters
-/

theorem isPlain_eq_false {c : Char} (h : isGap c ∨ isMark c ∨ c = '\x22') : isPlain c = false := by
  simp only [isGap, isMark, Bool.or_eq_true, beq_iff_eq, or_assoc] at h
  rcases h with rfl | rfl | rfl | rfl | rfl | rfl | rfl | rfl | rfl | rfl | rfl <;> rfl

namespace Cut

/-- The characters lead from one state to another. -/
def Leads (s : Cut) (cs : List Char) (t : Cut) : Prop :=
  cs.foldlM step s = some t

theorem Leads.cons {s t u : Cut} {c : Char} {cs : List Char} (hc : s.step c = some t)
    (hcs : t.Leads cs u) : s.Leads (c :: cs) u := by
  rw [Leads, List.foldlM_cons, hc]
  exact hcs

theorem Leads.append {s t u : Cut} {cs ds : List Char} (hcs : s.Leads cs t) (hds : t.Leads ds u) :
    s.Leads (cs ++ ds) u := by
  rw [Leads, List.foldlM_append, hcs]
  exact hds

/-- The state has read these tokens, be the last of them closed or not. -/
structure HasRead (s : Cut) (ts : List Token) : Prop where
  step : ∀ c, isPlain c = false -> s.step c = open? ts c
  close : s.close? = some ts.reverse

theorem hasRead_gap (ts : List Token) : HasRead ⟨.gap, ts⟩ ts :=
  ⟨fun _ _ => rfl, rfl⟩

/-!
# Words and gaps
-/

theorem open?_plain (ts : List Token) {c : Char} (h : isPlain c) :
    open? ts c = some ⟨.plain [c], ts⟩ := by
  have hnot : ∀ {p : Prop}, (p -> isGap c ∨ isMark c ∨ c = '\x22') -> ¬ p := by
    intro p hp hholds
    rw [isPlain_eq_false (hp hholds)] at h
    cases h
  rw [open?, if_neg (hnot Or.inl), if_neg (hnot fun hm => Or.inr (Or.inl hm)),
    if_neg (hnot fun hq => Or.inr (Or.inr (beq_iff_eq.1 hq))), if_pos h]

theorem leads_plain {cs : List Char} (h : ∀ c ∈ cs, isPlain c) (done : List Char)
    (ts : List Token) : Leads ⟨.plain done, ts⟩ cs ⟨.plain (cs.reverse ++ done), ts⟩ := by
  induction cs generalizing done with
  | nil => rfl
  | cons c cs ih =>
      obtain ⟨hc, hcs⟩ := List.forall_mem_cons.1 h
      rw [List.reverse_cons, List.append_assoc]
      exact Leads.cons (if_pos hc) (ih hcs (c :: done))

theorem leads_word {cs : List Char} (hne : cs ≠ []) (hplain : ∀ c ∈ cs, isPlain c)
    (ts : List Token) : Leads ⟨.gap, ts⟩ cs ⟨.plain cs.reverse, ts⟩ := by
  cases cs with
  | nil => exact absurd rfl hne
  | cons c cs =>
      obtain ⟨hc, hcs⟩ := List.forall_mem_cons.1 hplain
      rw [List.reverse_cons]
      exact Leads.cons (open?_plain ts hc) (leads_plain hcs [c] ts)

theorem exists_leads_word {cs : List Char} (hplain : ∀ c ∈ cs, isPlain c) {w : Written}
    (h : scalar? cs = some w) (ts : List Token) :
    ∃ s, Leads ⟨.gap, ts⟩ cs s ∧ s.HasRead (.scalar w :: ts) := by
  have hne : cs ≠ [] := by
    rintro rfl
    have hnil : scalar? [] = none := by decide
    rw [hnil] at h
    cases h
  refine ⟨_, leads_word hne hplain ts, ?_, ?_⟩
  · intro c hc
    simp [step, hc, h]
  · simp [close?, h]

theorem leads_newline {s : Cut} {ts : List Token} (h : s.HasRead ts) (level : Nat) :
    s.Leads (newline level) ⟨.gap, ts⟩ := by
  have hspaces : ∀ n, Leads ⟨.gap, ts⟩ (List.replicate n ' ') ⟨.gap, ts⟩ := by
    intro n
    induction n with
    | zero => rfl
    | succ n ih => exact Leads.cons rfl ih
  exact Leads.cons (h.step '\n' rfl) (hspaces (2 * level))

theorem leads_mark {s : Cut} {ts : List Token} (h : s.HasRead ts) {c : Char} (hc : isMark c) :
    s.Leads [c] ⟨.gap, .mark c :: ts⟩ := by
  have hgap : isGap c = false := by
    simp only [isMark, Bool.or_eq_true, beq_iff_eq, or_assoc] at hc
    rcases hc with rfl | rfl | rfl | rfl | rfl | rfl <;> rfl
  refine Leads.cons (t := ⟨.gap, .mark c :: ts⟩) ?_ rfl
  rw [h.step c (isPlain_eq_false (Or.inr (Or.inl hc))), open?, hgap, hc]
  rfl

/-!
# Texts
-/

theorem hexValue?_hexDigit : ∀ n < 16, hexValue? (hexDigit n) = some n := by
  decide

theorem leads_escapeChar (c : Char) (done : List Piece) (ts : List Token) :
    Leads ⟨.quoted done, ts⟩ (escapeChar c) ⟨.quoted (pieceOf c :: done), ts⟩ := by
  unfold escapeChar
  split_ifs with hquote hslash hb hf hn hr ht hcontrol
  · rw [beq_iff_eq.1 hquote]
    rfl
  · rw [beq_iff_eq.1 hslash]
    rfl
  · rw [beq_iff_eq.1 hb]
    rfl
  · rw [beq_iff_eq.1 hf]
    rfl
  · rw [beq_iff_eq.1 hn]
    rfl
  · rw [beq_iff_eq.1 hr]
    rfl
  · rw [beq_iff_eq.1 ht]
    rfl
  · have hhigh := hexValue?_hexDigit (c.toNat / 16) (by omega)
    have hlow := hexValue?_hexDigit (c.toNat % 16) (by omega)
    have hzero : hexValue? '0' = some 0 := rfl
    have hvalue : 16 * (c.toNat / 16) + c.toNat % 16 = c.toNat := Nat.div_add_mod _ _
    have hpiece : pieceOf c = .code c.toNat := by
      simp_all [pieceOf]
    simp [Leads, step, hzero, hhigh, hlow, hvalue, hpiece]
  · have hpiece : pieceOf c = .char c := by
      simp [pieceOf, hcontrol]
    simp [Leads, step, hquote, hslash, hcontrol, hpiece]

theorem leads_escaped (cs : List Char) (done : List Piece) (ts : List Token) :
    Leads ⟨.quoted done, ts⟩ (cs.flatMap escapeChar)
      ⟨.quoted ((cs.map pieceOf).reverse ++ done), ts⟩ := by
  induction cs generalizing done with
  | nil => rfl
  | cons c cs ih =>
      rw [List.map_cons, List.reverse_cons, List.append_assoc]
      exact (leads_escapeChar c done ts).append (ih (pieceOf c :: done))

theorem leads_writeText (s : String) (ts : List Token) :
    Leads ⟨.gap, ts⟩ (writeText s) ⟨.gap, .text (piecesOf s) :: ts⟩ := by
  have hclose : Leads ⟨.quoted ((piecesOf s).reverse ++ []), ts⟩ ['\x22']
      ⟨.gap, .text (piecesOf s) :: ts⟩ := by
    rw [List.append_nil]
    refine Leads.cons (t := ⟨.gap, .text (piecesOf s) :: ts⟩) ?_ rfl
    simp [step]
  exact (Leads.cons rfl (leads_escaped s.toList [] ts)).append hclose

theorem Leads.key {s : Cut} {cs : List Char} {ts : List Token} (h : s.Leads cs ⟨.gap, ts⟩)
    (k : String) : s.Leads (cs ++ writeText k ++ [':', ' '])
      ⟨.gap, .mark ':' :: .text (piecesOf k) :: ts⟩ := by
  have hcolon : Leads ⟨.gap, .text (piecesOf k) :: ts⟩ [':', ' ']
      ⟨.gap, .mark ':' :: .text (piecesOf k) :: ts⟩ := rfl
  exact (h.append (leads_writeText k ts)).append hcolon

end Cut

/-!
# Numbers
-/

theorem eq_of_canonical_eq_real {v : Json} {x : Number.Double} (h : v.canonical = real x) :
    v = real x := by
  cases v <;> cases h
  rfl

theorem tokens?_word {cs : List Char} (hplain : ∀ c ∈ cs, isPlain c) {w : Written}
    (h : scalar? cs = some w) : tokens? cs = some [.scalar w] := by
  obtain ⟨s, hs, hread⟩ := Cut.exists_leads_word hplain h []
  have hfold : cs.foldlM Cut.step ⟨.gap, []⟩ = some s := hs
  rw [tokens?, hfold]
  exact hread.close

theorem exists_scalar?_of_tokens? {cs : List Char} (hplain : ∀ c ∈ cs, isPlain c)
    {ts : List Token} (h : tokens? cs = some ts) (hne : ts ≠ []) :
    ∃ w, scalar? cs = some w ∧ ts = [.scalar w] := by
  by_cases hcs : cs = []
  · subst hcs
    cases h
    exact absurd rfl hne
  · have hfold : cs.foldlM Cut.step ⟨.gap, []⟩ = some ⟨.plain cs.reverse, []⟩ :=
      Cut.leads_word hcs hplain []
    rw [tokens?, hfold] at h
    obtain ⟨w, hscalar, hts⟩ := Option.map_eq_some_iff.1 h
    rw [List.reverse_reverse] at hscalar
    exact ⟨w, hscalar, hts.symm⟩

theorem readsBack_real_iff {x : Number.Double} : (real x).ReadsBack <->
    ∃ n : Numeral, scalar? (writeDouble x) = some (.number n) ∧ n.value? = some (real x) := by
  have hchars : (real x).pretty.toList = writeDouble x := String.toList_ofList
  have hplain : ∀ c ∈ writeDouble x, isPlain c := fun c hc => isPlain_of_mem_writeDouble hc
  constructor
  · intro h
    obtain ⟨v, hread, hv⟩ := Option.map_eq_some_iff.1 h
    rw [eq_of_canonical_eq_real hv] at hread
    obtain ⟨w, hwritten, hvalue⟩ := Option.bind_eq_some_iff.1 hread
    obtain ⟨ts, htokens, hw⟩ := Option.bind_eq_some_iff.1 hwritten
    have hne : ts ≠ [] := by
      rintro rfl
      cases hw
    rw [hchars] at htokens
    obtain ⟨w', hscalar, rfl⟩ := exists_scalar?_of_tokens? hplain htokens hne
    cases hw
    rcases scalar?_cases hscalar with (rfl | ⟨b, rfl⟩) | ⟨n, rfl⟩
    · cases hvalue
    · cases hvalue
    · exact ⟨n, hscalar, hvalue⟩
  · rintro ⟨n, hscalar, hvalue⟩
    have hwritten : written? (real x).pretty = some (.number n) := by
      rw [written?, hchars, tokens?_word hplain hscalar]
      rfl
    rw [ReadsBack, parse?, read?, hwritten, Option.bind_some, Written.value?, hvalue]
    rfl

theorem written_real {x : Number.Double} {n : Numeral}
    (h : scalar? (writeDouble x) = some (.number n)) : (real x).written = .number n := by
  rw [written, h]
  rfl

theorem written_int (n : Int) :
    (int n).written = .number ⟨decide (n < 0), writeNat n.natAbs, [], none⟩ := by
  rw [written, scalar?_of_ofChars? (ofChars?_writeInt n)]
  rfl

/-!
# Values
-/

mutual

theorem leads_write : ∀ {v : Json}, v.Exact -> ∀ (level : Nat) (ts : List Token),
    ∃ s, Cut.Leads ⟨.gap, ts⟩ (write level v) s ∧ s.HasRead (v.written.tokens.reverse ++ ts)
  | null, _, _, ts =>
      Cut.exists_leads_word (List.all_eq_true.1 rfl : ∀ c ∈ "null".toList, isPlain c) rfl ts
  | bool true, _, _, ts =>
      Cut.exists_leads_word (List.all_eq_true.1 rfl : ∀ c ∈ "true".toList, isPlain c) rfl ts
  | bool false, _, _, ts =>
      Cut.exists_leads_word (List.all_eq_true.1 rfl : ∀ c ∈ "false".toList, isPlain c) rfl ts
  | int n, _, level, ts => by
      rw [written_int]
      exact Cut.exists_leads_word (fun c hc => isPlain_of_mem_writeInt hc)
        (scalar?_of_ofChars? (ofChars?_writeInt n)) ts
  | real x, h, level, ts => by
      obtain ⟨n, hn, -⟩ := readsBack_real_iff.1 h
      rw [written_real hn]
      exact Cut.exists_leads_word (fun c hc => isPlain_of_mem_writeDouble hc) hn ts
  | str s, _, level, ts => ⟨_, Cut.leads_writeText s ts, Cut.hasRead_gap _⟩
  | arr [], _, _, ts => ⟨_, rfl, Cut.hasRead_gap _⟩
  | arr (v :: rest), h, level, ts => by
      obtain ⟨hv, hrest⟩ := h
      have hopen := Cut.leads_newline (Cut.hasRead_gap (.mark '[' :: ts)) (level + 1)
      obtain ⟨s, hs, hread⟩ := leads_write hv (level + 1) (.mark '[' :: ts)
      obtain ⟨t, ht, hread⟩ := leads_writeItems hrest (level + 1) hread
      have hline := Cut.leads_newline hread level
      have hclose := Cut.leads_mark (Cut.hasRead_gap
        ((Written.itemTokens (writtenItems rest)).reverse ++
          (v.written.tokens.reverse ++ .mark '[' :: ts))) (c := ']') rfl
      refine ⟨_, Cut.Leads.cons rfl ((((hopen.append hs).append ht).append hline).append
        hclose), ?_⟩
      simp [written, writtenItems, Written.tokens, Cut.hasRead_gap]
  | obj [], _, _, ts => ⟨_, rfl, Cut.hasRead_gap _⟩
  | obj ((k, v) :: rest), h, level, ts => by
      obtain ⟨hv, hrest⟩ := h
      have hopen := Cut.leads_newline (Cut.hasRead_gap (.mark '\x7b' :: ts)) (level + 1)
      obtain ⟨s, hs, hread⟩ := leads_write hv (level + 1)
        (.mark ':' :: .text (piecesOf k) :: .mark '\x7b' :: ts)
      obtain ⟨t, ht, hread⟩ := leads_writeMembers hrest (level + 1) hread
      have hline := Cut.leads_newline hread level
      have hclose := Cut.leads_mark (Cut.hasRead_gap
        ((Written.memberTokens (writtenMembers rest)).reverse ++ (v.written.tokens.reverse ++
          .mark ':' :: .text (piecesOf k) :: .mark '\x7b' :: ts))) (c := '\x7d') rfl
      refine ⟨_, Cut.Leads.cons rfl (((((hopen.key k).append hs).append ht).append hline).append
        hclose), ?_⟩
      simp [written, writtenMembers, Written.tokens, Cut.hasRead_gap]

theorem leads_writeItems : ∀ {items : List Json}, ExactItems items -> ∀ (level : Nat)
    {s : Cut} {ts : List Token}, s.HasRead ts ->
    ∃ t, s.Leads (writeItems level items) t ∧
      t.HasRead ((Written.itemTokens (writtenItems items)).reverse ++ ts)
  | [], _, _, s, ts, hs => ⟨s, rfl, hs⟩
  | v :: rest, h, level, s, ts, hs => by
      obtain ⟨hv, hrest⟩ := h
      have hopen := Cut.leads_mark hs (c := ',') rfl
      have hline := Cut.leads_newline (Cut.hasRead_gap (.mark ',' :: ts)) level
      obtain ⟨t, ht, hread⟩ := leads_write hv level (.mark ',' :: ts)
      obtain ⟨u, hu, hread⟩ := leads_writeItems hrest level hread
      refine ⟨u, hopen.append ((hline.append ht).append hu), ?_⟩
      simpa [writtenItems, Written.itemTokens] using hread

theorem leads_writeMembers : ∀ {members : List (String × Json)}, ExactMembers members ->
    ∀ (level : Nat) {s : Cut} {ts : List Token}, s.HasRead ts ->
    ∃ t, s.Leads (writeMembers level members) t ∧
      t.HasRead ((Written.memberTokens (writtenMembers members)).reverse ++ ts)
  | [], _, _, s, ts, hs => ⟨s, rfl, hs⟩
  | (k, v) :: rest, h, level, s, ts, hs => by
      obtain ⟨hv, hrest⟩ := h
      have hopen := Cut.leads_mark hs (c := ',') rfl
      have hline := Cut.leads_newline (Cut.hasRead_gap (.mark ',' :: ts)) level
      obtain ⟨t, ht, hread⟩ := leads_write hv level
        (.mark ':' :: .text (piecesOf k) :: .mark ',' :: ts)
      obtain ⟨u, hu, hread⟩ := leads_writeMembers hrest level hread
      refine ⟨u, hopen.append (((hline.key k).append ht).append hu), ?_⟩
      simpa [writtenMembers, Written.memberTokens] using hread

end

theorem tokens?_write {v : Json} (h : v.Exact) : tokens? (write 0 v) = some v.written.tokens := by
  obtain ⟨s, hs, hread⟩ := leads_write h 0 []
  rw [List.append_nil] at hread
  have hfold : (write 0 v).foldlM Cut.step ⟨.gap, []⟩ = some s := hs
  rw [tokens?, hfold, ← v.written.tokens.reverse_reverse]
  exact hread.close

/-!
# Reading values
-/

theorem decodeAfter?_pieceOf (c : Char) (done : List Char) (rest : List Piece) :
    decodeAfter? done (pieceOf c :: rest) = decodeAfter? (c :: done) rest := by
  rw [pieceOf]
  split
  · next hcontrol =>
      have hlt : c.toNat < 0x20 := by simp_all
      have hhigh : isHigh c.toNat = false := by simp [isHigh]; omega
      have hlow : isLow c.toNat = false := by simp [isLow]; omega
      rw [decodeAfter?.eq_def]
      simp [hhigh, hlow]
  · rw [decodeAfter?]

theorem decodeAfter?_map_pieceOf (cs done : List Char) :
    decodeAfter? done (cs.map pieceOf) = some (done.reverse ++ cs) := by
  induction cs generalizing done with
  | nil => simp [decodeAfter?]
  | cons c cs ih =>
      rw [List.map_cons, decodeAfter?_pieceOf, ih, List.reverse_cons, List.append_assoc]
      rfl

theorem decode?_piecesOf (s : String) : decode? (piecesOf s) = some s := by
  rw [decode?, piecesOf, decodeAfter?_map_pieceOf]
  exact congrArg some String.ofList_toList

mutual

/-- What a value is written as stands for it, if there is room for its containers. -/
theorem value?_written : ∀ {v : Json}, v.Exact -> ∀ room,
    v.written.value? room = if v.depth <= room then some v else none
  | null, _, room => by simp [written, Written.value?, depth]
  | bool b, _, room => by simp [written, Written.value?, depth]
  | int n, h, room => by
      rw [written_int, Written.value?, value?_writeInt h]
      simp [depth]
  | real x, h, room => by
      obtain ⟨n, hn, hvalue⟩ := readsBack_real_iff.1 h
      rw [written_real hn, Written.value?, hvalue]
      simp [depth]
  | str s, _, room => by
      rw [written, Written.value?, decode?_piecesOf]
      simp [depth]
  | arr items, h, room => by
      cases room with
      | zero => simp [written, Written.value?, depth]
      | succ room =>
          rw [written, Written.value?, itemValues?_written h, depth]
          by_cases hroom : depthItems items <= room <;> simp [hroom]
  | obj members, h, room => by
      cases room with
      | zero => simp [written, Written.value?, depth]
      | succ room =>
          rw [written, Written.value?, memberValues?_written h, depth]
          by_cases hroom : depthMembers members <= room <;> simp [hroom]

theorem itemValues?_written : ∀ {items : List Json}, ExactItems items -> ∀ room,
    Written.itemValues? room (writtenItems items) =
      if depthItems items <= room then some items else none
  | [], _, room => by simp [writtenItems, Written.itemValues?, depthItems]
  | v :: rest, h, room => by
      rw [writtenItems, Written.itemValues?, value?_written h.1, itemValues?_written h.2,
        depthItems]
      simp only [Nat.max_le]
      by_cases hv : depth v <= room <;> by_cases hrest : depthItems rest <= room <;>
        simp [hv, hrest]

theorem memberValues?_written : ∀ {members : List (String × Json)}, ExactMembers members ->
    ∀ room, Written.memberValues? room (writtenMembers members) =
      if depthMembers members <= room then some members else none
  | [], _, room => by simp [writtenMembers, Written.memberValues?, depthMembers]
  | (k, v) :: rest, h, room => by
      rw [writtenMembers, Written.memberValues?, decode?_piecesOf, value?_written h.1,
        memberValues?_written h.2, depthMembers]
      simp only [Nat.max_le]
      by_cases hv : depth v <= room <;> by_cases hrest : depthMembers rest <= room <;>
        simp [hv, hrest]

end

/-- A printed value is read as it is, unless it is too deep. -/
theorem read?_pretty {v : Json} (h : v.Exact) :
    read? v.pretty = if v.depth <= maxDepth then some v else none := by
  have hchars : v.pretty.toList = write 0 v := String.toList_ofList
  rw [read?, written?, hchars, tokens?_write h, Option.bind_some, ofTokens?_tokens,
    Option.bind_some, value?_written h]

theorem parse?_pretty {v : Json} (h : v.Exact) :
    parse? v.pretty = if v.depth <= maxDepth then some v.canonical else none := by
  rw [parse?, read?_pretty h]
  split <;> rfl

end Json
end Workflow
