import SnippetGate.Proofs.Bytes.Utf8
import SnippetGate.Proofs.Text.Basic
import SnippetGate.Tsx.Filling

/-!
# The ends of filled texts

Whatever a parser makes of a text, filling puts nothing but blocks into it. So a text without blanks
at its ends has none there after it is filled.
-/

namespace SnippetGate

namespace Edit

variable {e : Edit} {es : List Edit} {bs : Bytes} {c : Char} {b : UInt8}

theorem begins_applyTo (hr : [b] <+: e.replacement) (h : bs.Begins c b) :
    (e.applyTo bs).Begins c b := by
  -- Either the edit leaves the beginning alone, or it cuts it short.
  have keeps {p : Bytes} (hp : p <+: bs) :
      p <+: e.applyTo bs ∨ e.start < p.length ∧ p.take e.start ++ [b] <+: e.applyTo bs := by
    obtain ⟨r, rfl⟩ := hp
    rcases Nat.lt_or_ge e.start p.length with hlt | hle
    · right
      obtain ⟨m, hm⟩ := hr
      refine ⟨hlt, m ++ (p ++ r).drop e.stop, ?_⟩
      rw [applyTo, ← hm, List.take_append_of_le_length hlt.le]
      simp
    · left
      rw [applyTo, List.take_append, List.take_of_length_le hle, List.append_assoc,
        List.append_assoc]
      exact List.prefix_append _ _
  rcases h with h | ⟨p, hp, h⟩
  · exact (keeps h).imp_right fun h' => ⟨_, List.take_prefix _ _, h'.2⟩
  · refine .inr ((keeps h).elim (fun h' => ⟨p, hp, h'⟩) fun ⟨hlt, h'⟩ => ?_)
    rw [List.length_append, List.length_singleton, Nat.lt_succ_iff] at hlt
    rw [List.take_append_of_le_length hlt] at h'
    exact ⟨_, (List.take_prefix _ _).trans hp, h'⟩

theorem ends_applyTo (hr : [b] <:+ e.replacement) (h : bs.Ends c b) :
    (e.applyTo bs).Ends c b := by
  have hrest : b :: bs.drop e.stop <:+ e.applyTo bs := by
    obtain ⟨m, hm⟩ := hr
    exact ⟨bs.take e.start ++ m, by rw [applyTo, ← hm]; simp⟩
  -- Either the edit leaves the end alone, or it cuts it short.
  have keeps {q : Bytes} (hq : q <:+ bs) :
      q <:+ e.applyTo bs ∨ (bs.drop e.stop).length < q.length ∧ bs.drop e.stop <:+ q := by
    have hdrop : bs.drop e.stop <:+ bs := List.drop_suffix _ _
    rcases Nat.lt_or_ge (bs.drop e.stop).length q.length with hlt | hle
    · exact .inr ⟨hlt, List.suffix_of_suffix_length_le hdrop hq hlt.le⟩
    · exact .inl ((List.suffix_of_suffix_length_le hq hdrop hle).trans
        ((List.suffix_cons b _).trans hrest))
  rcases h with h | ⟨q, hq, h⟩
  · exact (keeps h).imp_right fun h' => ⟨_, h'.2, hrest⟩
  · refine .inr ((keeps h).elim (fun h' => ⟨q, hq, h'⟩) fun ⟨hlt, h'⟩ => ⟨_, ?_, hrest⟩)
    exact (List.suffix_of_suffix_length_le h' (List.suffix_cons b q)
      (Nat.lt_succ_iff.mp hlt)).trans hq

theorem disjointFrom_subset (n : Nat) (es : List Edit) : disjointFrom n es ⊆ es := by
  induction es generalizing n with
  | nil => exact List.Subset.refl _
  | cons e es ih =>
    rw [disjointFrom]
    split
    · exact List.subset_cons_of_subset e (ih n)
    · exact List.cons_subset_cons e (ih e.stop)

theorem mem_of_mem_chosen (h : e ∈ chosen es) : e ∈ es :=
  List.mem_mergeSort.mp (disjointFrom_subset 0 _ h)

/-- What every edit keeps, all of them together keep. -/
theorem splice_keeps {P : Bytes → Prop} (h : P bs)
    (step : ∀ e ∈ es, ∀ bs, P bs → P (e.applyTo bs)) : P (splice bs es).1 := by
  have step' : ∀ e ∈ chosen es, ∀ bs, P bs → P (e.applyTo bs) :=
    fun e he => step e (mem_of_mem_chosen he)
  change P ((chosen es).foldr applyTo bs)
  generalize chosen es = kept at step'
  induction kept with
  | nil => exact h
  | cons e es ih =>
    obtain ⟨he, hes⟩ := List.forall_mem_cons.mp step'
    exact he _ (ih hes)

end Edit

namespace Tsx.Filling

open Text

variable {t u : Text} {p : Program} {n : Node} {e : Edit}

/-- A text that begins and ends with braces. -/
def IsBraced (t : Text) : Prop := ∃ u, t = '{' :: u ++ ['}']

theorem isBraced_block (lines : List Text) (indent : Text) :
    IsBraced (Handler.block lines indent) := ⟨_, rfl⟩

theorem IsBraced.append {m : Text} (ht : IsBraced t) (hu : IsBraced u) :
    IsBraced (t ++ m ++ u) := by
  obtain ⟨t, rfl⟩ := ht
  obtain ⟨u, rfl⟩ := hu
  exact ⟨t ++ ['}'] ++ m ++ '{' :: u, by simp⟩

/-- The edits put blocks in the place of empty code. -/
theorem isBraced_of_nodeEdit? (h : nodeEdit? p n = some e) :
    ∃ block, e.replacement = Bytes.ofText block ∧ IsBraced block := by
  rw [nodeEdit?, Option.orElse_eq_some] at h
  rcases h with h | ⟨-, h⟩
  · simp only [handlerEdit?, Option.bind_eq_bind, Option.bind_eq_some_iff] at h
    obtain ⟨_, _, _, _, _, _, _, _, he⟩ := h
    obtain rfl := Option.some.inj he
    exact ⟨_, rfl, isBraced_block _ _⟩
  · simp only [conditionalEdit?, Option.bind_eq_bind, Option.bind_eq_some_iff] at h
    obtain ⟨_, _, _, _, _, _, _, _, _, _, he⟩ := h
    obtain rfl := Option.some.inj he
    exact ⟨_, rfl, (isBraced_block _ _).append (isBraced_block _ _)⟩

/-- What a step of a computation that can fail makes, if the whole computation succeeds. -/
theorem exists_of_bind_eq_ok {ε α β : Type} {x : Except ε α} {f : α → Except ε β} {r : β}
    (h : x >>= f = .ok r) : ∃ a, x = .ok a ∧ f a = .ok r := by
  cases x with
  | error message => cases h
  | ok a => exact ⟨a, rfl, h⟩

/-- The edits are spliced and noted, or the text is left as it is. -/
theorem carryOut_cases {parser : Parser} {source : Bytes} {es : List Edit} {r : Filled}
    (h : carryOut parser t source es = .ok r) :
    r.text = t ∧ r.applied = [] ∨ es ≠ [] ∧ (Edit.splice source es).1.toText? = some r.text ∧
      (Edit.splice source es).2 = r.applied := by
  unfold carryOut at h
  split at h
  · exact .inl (Except.ok.inj h ▸ ⟨rfl, rfl⟩)
  next hes =>
  obtain ⟨tree, -, h⟩ := exists_of_bind_eq_ok h
  split at h
  · exact .inl (Except.ok.inj h ▸ ⟨rfl, rfl⟩)
  split at h
  · cases h
  · next u hu =>
    obtain rfl := Except.ok.inj h
    exact .inr ⟨by simpa using hes, hu, rfl⟩

/-- A text is filled by splicing the edits for some tree, or left as it is. -/
theorem fill_cases (grammar : Text) (supply : Supply) (t : Text) :
    (fill grammar supply t).text = t ∧ (fill grammar supply t).applied = [] ∨ t ≠ [] ∧ ∃ root,
      let es := edits t (Bytes.ofText t) root
      es ≠ [] ∧
        (Edit.splice (Bytes.ofText t) es).1.toText? = some (fill grammar supply t).text ∧
        (Edit.splice (Bytes.ofText t) es).2 = (fill grammar supply t).applied := by
  cases supply with
  | notInstalled => exact .inl ⟨rfl, rfl⟩
  | noGrammar reason => exact .inl ⟨rfl, rfl⟩
  | available parser =>
    rw [fill]
    split
    · exact .inl ⟨rfl, rfl⟩
    next hblank =>
    split
    · next r hr =>
      obtain ⟨tree, -, hr⟩ := exists_of_bind_eq_ok hr
      split at hr
      · exact .inl (Except.ok.inj hr ▸ ⟨rfl, rfl⟩)
      · refine (carryOut_cases hr).imp_right fun hr => ⟨?_, tree.root, hr⟩
        rintro rfl
        exact hblank rfl
    · exact .inl ⟨rfl, rfl⟩

/-- Filling brings no blanks to the ends of a text. -/
theorem isTrimmed_fill (grammar : Text) (supply : Supply) (h : IsTrimmed t) :
    IsTrimmed (fill grammar supply t).text := by
  rcases fill_cases grammar supply t with ⟨he, -⟩ | ⟨hne, root, -, he, -⟩
  · rwa [he]
  set u := (fill grammar supply t).text
  have hof := Bytes.ofText_of_toText? he
  have hblock : ∀ e ∈ edits t (Bytes.ofText t) root, ∃ block, e.replacement = Bytes.ofText block ∧
      IsBraced block := fun e he => by
    obtain ⟨n, -, hn⟩ := List.mem_filterMap.mp he
    exact isBraced_of_nodeEdit? hn
  have hopen : String.utf8EncodeChar '{' = [0x7B] := rfl
  have hclose : String.utf8EncodeChar '}' = [0x7D] := rfl
  refine ⟨fun x hx => ?_, fun x hx => ?_⟩
  · cases t with
    | nil => exact absurd rfl hne
    | cons y r =>
      have hbegins : (Bytes.ofText u).Begins y 0x7B := by
        rw [hof]
        refine Edit.splice_keeps (Bytes.begins_ofText y r _) fun e he bs => ?_
        obtain ⟨block, hr, v, rfl⟩ := hblock e he
        exact Edit.begins_applyTo (hr ▸ ⟨_, rfl⟩)
      rcases hbegins.head? hopen with hu | hu
      · obtain rfl := Option.some.inj (hx.symm.trans hu)
        exact h.head x rfl
      · obtain rfl := Option.some.inj (hx.symm.trans hu)
        rfl
  · rcases List.eq_nil_or_concat t with rfl | ⟨r, y, rfl⟩
    · exact absurd rfl hne
    · rw [List.concat_eq_append] at h he hof hblock
      have hends : (Bytes.ofText u).Ends y 0x7D := by
        rw [hof]
        refine Edit.splice_keeps (Bytes.ends_ofText r y _) fun e he bs => ?_
        obtain ⟨block, hr, v, rfl⟩ := hblock e he
        refine Edit.ends_applyTo (hr ▸ ⟨Bytes.ofText ('{' :: v), ?_⟩)
        rw [Bytes.ofText_append]
        rfl
      rcases hends.getLast? hclose with hu | hu
      · obtain rfl := Option.some.inj (hx.symm.trans hu)
        exact h.last x List.getLast?_concat
      · obtain rfl := Option.some.inj (hx.symm.trans hu)
        rfl

end Tsx.Filling

end SnippetGate
