import Resilient.Proofs.Json.Recovery
import Resilient.Proofs.Json.Reports

/-!
# What a bracket group is read as

`ReadAs` says what the slots of a group give. It holds of the group that a text begins with and of
every group that is entered inside (`reads_nested_groups`), whatever else is malformed.
-/

namespace Resilient

namespace Json

variable {limits : Limits} {x : State} {s a b e : Scan} {ss rest slot body : List Scan}
  {st : List Frame} {g g' : Group} {t : Token} {v : Value} {done : Entries Value} {key : String}

/-! ### Arrays and objects from their slots -/

/-- The slot may write the key: it begins with it, or the key is empty and no string is there. -/
def MayWrite (key : String) (slot : List Scan) : Prop :=
  firstString slot = some key ∨ key = "" ∧ firstString slot = none

/-- An array with one item for each slot, in order. -/
def ArrayOf (body : List Scan) (v : Value) : Prop :=
  ∃ items, v = .array items ∧ List.Forall₂ ValueOf (filledSlots body) items

/-- An object that has the members among the slots, unless a later slot may write the key again. -/
def ObjectOf (body : List Scan) (v : Value) : Prop :=
  ∃ entries, v = .object entries ∧ ∀ before slot after key w,
    filledSlots body = before ++ slot :: after →
    Sentence Terminals.scan slot (.member key w) → (∀ later ∈ after, ¬ MayWrite key later) →
    Entries.get? entries key = some w

/-- What a group is read as. -/
def ReadAs (opener : Kind) (body : List Scan) (v : Value) : Prop :=
  (opener = .leftBracket → ArrayOf body v) ∧ (opener = .leftBrace → ObjectOf body v)

theorem Grows.exists_items {done : List Value} {slots : List (List Scan)}
    (h : Grows (.array done) slots g) :
    ∃ items, g = .array (items.reverse ++ done) ∧ List.Forall₂ ValueOf slots items := by
  induction slots generalizing done with
  | nil =>
    cases h
    exact ⟨[], rfl, .nil⟩
  | cons slot slots ih =>
    cases h with
    | cons hs hr =>
      obtain ⟨v, rfl, hv⟩ := hs
      obtain ⟨items, rfl, hitems⟩ := ih hr
      exact ⟨v :: items, by simp, .cons hv hitems⟩

theorem MemberOf.get?_eq {done' : Entries Value} (h : MemberOf slot done done')
    (hk : ¬ MayWrite key slot) : done'.get? key = done.get? key := by
  rcases h.1 with rfl | ⟨v, rfl⟩
  · rfl
  · rw [Entries.get?_insert, if_neg]
    intro he
    apply hk
    cases hf : firstString slot with
    | none => exact .inr ⟨by simpa [hf] using he.symm, hf⟩
    | some k => exact .inl (by rw [hf, ← he, hf]; rfl)

theorem Grows.get?_eq {slots : List (List Scan)} (h : Grows (.object done) slots g)
    (hk : ∀ slot ∈ slots, ¬ MayWrite key slot) :
    ∃ entries : Entries Value, g = .object entries ∧ entries.get? key = done.get? key := by
  induction slots generalizing done with
  | nil =>
    cases h
    exact ⟨done, rfl, rfl⟩
  | cons slot slots ih =>
    cases h with
    | cons hs hr =>
      obtain ⟨done', rfl, hm⟩ := hs
      obtain ⟨entries, rfl, hget⟩ := ih hr fun slot hslot => hk slot (by simp [hslot])
      exact ⟨entries, rfl, hget.trans (hm.get?_eq (hk slot (by simp)))⟩

theorem Grows.get?_member {before after : List (List Scan)} {w : Value}
    (h : Grows (.object done) (before ++ slot :: after) g)
    (hm : Sentence Terminals.scan slot (.member key w))
    (hk : ∀ later ∈ after, ¬ MayWrite key later) :
    ∃ entries : Entries Value, g = .object entries ∧ entries.get? key = some w := by
  induction before generalizing done with
  | nil =>
    cases h with
    | cons hs hr =>
      obtain ⟨done', rfl, -, hw⟩ := hs
      obtain ⟨entries, rfl, hget⟩ := hr.get?_eq hk
      exact ⟨entries, rfl, by rw [hget, hw key w hm, Entries.get?_insert, if_pos rfl]⟩
  | cons s before ih =>
    cases h with
    | cons hs hr =>
      obtain ⟨done', rfl, -⟩ := hs
      exact ih hr

theorem Grows.exists_entries {slots : List (List Scan)} (h : Grows (.object done) slots g) :
    ∃ entries : Entries Value, g = .object entries := by
  induction slots generalizing done with
  | nil =>
    cases h
    exact ⟨done, rfl⟩
  | cons slot slots ih =>
    cases h with
    | cons hs hr =>
      obtain ⟨done', rfl, -⟩ := hs
      exact ih hr

/-- The parts of an empty container are what its slots give. -/
theorem Grows.readAs (h : Grows g (filledSlots body) g') (hg : g.Empty) :
    ReadAs g.opener body g'.value := by
  rcases hg with rfl | rfl
  · obtain ⟨items, rfl, hitems⟩ := h.exists_items
    refine ⟨fun _ => ⟨items, by simp [Group.value], hitems⟩, fun hk => ?_⟩
    cases hk
  · obtain ⟨entries, rfl⟩ := h.exists_entries
    refine ⟨fun hk => ?_, fun _ => ⟨entries, rfl, fun before slot after key w heq hm hk => ?_⟩⟩
    · cases hk
    · rw [heq] at h
      obtain ⟨entries', he, hget⟩ := h.get?_member hm hk
      cases he
      exact hget

/-! ### Entering a group -/

/-- Behind these scans, from the beginning of a value, the automaton stands here. -/
def Reaches (limits : Limits) (ss : List Scan) (mode : Mode) (st : List Frame) : Prop :=
  ∃ r, Passes limits ⟨.value, [], false⟩ ss r ⟨mode, st, false⟩

/-- What is taken before a group is entered ends with its opening bracket. -/
theorem exists_opener {span : Span} (h : Reaches limits ss (.opened g span) st) :
    ∃ init, ∃ s : Scan, ss = init ++ [s] ∧ g.Empty ∧ s.token.kind = g.opener := by
  obtain ⟨r, hp⟩ := h
  rcases List.eq_nil_or_concat ss with rfl | ⟨init, s, rfl⟩
  · cases hp
  · rw [List.concat_eq_append] at hp
    obtain ⟨z, r₁, r₂, -, hlast, -⟩ := hp.append_inv
    cases hlast with
    | cons hm hnil =>
      cases hnil
      have hmove : (react limits z.mode z.stack z.complained s.token).move =
          .consume (.opened g span) st := congrArg Turn.move hm
      have hfollows := (told_react limits z.mode z.stack z.complained s.token).2
      rw [Turn.Leaves, hmove] at hfollows
      obtain ⟨hg, hopener, -⟩ := hfollows
      exact ⟨init, s, by simp, hg, hopener⟩

theorem reaches_group (hl : limits.depth = none) {pre : List Scan} {span : Span}
    (h : Reaches limits (pre ++ [a]) (.opened g span) st) (hbody : Nested (fun _ => True) body)
    (hab : (a.token.kind, b.token.kind) ∈ bracketPairs) :
    ∃ v, Reaches limits (pre ++ a :: (body ++ [b])) (.ended v) st ∧ ReadAs a.token.kind body v := by
  obtain ⟨init, s, heq, hg, hs⟩ := exists_opener h
  obtain ⟨rfl, rfl⟩ : pre = init ∧ a = s := by simpa using heq
  obtain ⟨r, hp⟩ := h
  obtain ⟨r', g', hin, hgrows⟩ := closes_of_nested hl body hbody g st _ b (.opened span)
    (closer_of_opener hs hab)
  refine ⟨g'.value, ⟨r ++ r', by simpa using hp.append hin⟩, ?_⟩
  rw [hs]
  exact hgrows.readAs hg

/-! ### Texts -/

/-- A bracket that stands once is found at its place. -/
theorem eq_of_append_cons (init last : List Scan) {z : Scan}
    (h : init ++ z :: last = body ++ b :: rest) (hinit : ∀ s ∈ init, s.token.kind ≠ b.token.kind)
    (hlast : ∀ s ∈ last, s.token.kind ≠ b.token.kind) : init = body ∧ z = b := by
  have hnot : b ∉ init := fun hb => hinit b hb rfl
  have hnot' : b ∉ last := fun hb => hlast b hb rfl
  obtain ⟨hbody, hz, -⟩ := (List.append_cons_inj_of_notMem hnot hnot').1 h
  exact ⟨hbody, hz⟩

theorem value_of_reaches {reader : Reader} (hc : reader.complained = false)
    (hu : reader.unread = ss ++ s :: rest)
    (h : Reaches reader.options.limits ss (.ended v) []) :
    reader.value.1 = v ∧ reader.value.2.2.unread = { s with reports := [] } :: rest := by
  obtain ⟨r, hp⟩ := h
  have hrun := Automaton.run_of_passes hp (s :: rest)
  have hm : (react reader.options.limits (.ended v) [] false s.token).move = .finish v false := rfl
  have hend := Automaton.run_finish hm rest
  rw [hend] at hrun
  simp only [Reader.value, hc, hu]
  rw [hrun]
  exact ⟨rfl, rfl⟩

/-- Whatever else is malformed in a text with properly nested brackets that begins with one: its
value is what the first bracket group is read as, the scans behind the group are left, and each
group that is entered inside is read as a whole. -/
theorem reads_nested_groups {source : String} {options : Options} {ss : List Scan} {e : Scan}
    (hdepth : options.limits.depth = none) (hsize : options.limits.exceededSize source = none)
    (hscan : Scan.ofText options.dialect source = ss ++ [e])
    (hnested : Nested (fun _ => True) ss)
    (hopens : ∃ a ∈ ss.head?, a.token.kind.opens = true) :
    (∃ a body b rest, ss = a :: (body ++ b :: rest) ∧
      (a.token.kind, b.token.kind) ∈ bracketPairs ∧ Nested (fun _ => True) body ∧
      ReadAs a.token.kind body (Reader.ofText source options).value.1 ∧
      (Reader.ofText source options).value.2.2.unread.map Scan.token =
        (rest ++ [e]).map Scan.token) ∧
    ∀ pre post g span st, ss = pre ++ post → Reaches options.limits pre (.opened g span) st →
      ∃ init a body b rest v, pre = init ++ [a] ∧ post = body ++ b :: rest ∧
        (a.token.kind, b.token.kind) ∈ bracketPairs ∧ Nested (fun _ => True) body ∧
        Reaches options.limits (pre ++ body ++ [b]) (.ended v) st ∧
        ReadAs a.token.kind body v := by
  have hreader : Reader.ofText source options = ⟨options, none, ss ++ [e], false⟩ := by
    simp [Reader.ofText, hsize, hscan]
  refine ⟨?_, fun pre post g span st heq hr => ?_⟩
  · obtain ⟨a, ha, hopen⟩ := hopens
    cases hnested with
    | nil => cases ha
    | plain ho _ _ _ _ =>
      cases ha
      rw [ho] at hopen
      cases hopen
    | @group _ a b body rest hab hbody _ =>
      obtain ⟨g, hg, hga, -⟩ := exists_group hab
      obtain ⟨span, hp⟩ := passes_opener options.limits hg ⟨a, rfl, hga⟩ []
      have henter : Reaches options.limits ([] ++ [a]) (.opened g span) [] := ⟨_, hp⟩
      obtain ⟨v, hreach, hread⟩ := reaches_group hdepth henter hbody hab
      -- The end of the text is one of the scans behind the group.
      obtain ⟨z, zs, hz⟩ : ∃ z zs, rest ++ [e] = z :: zs := by
        cases rest with
        | nil => exact ⟨e, [], rfl⟩
        | cons z zs => exact ⟨z, zs ++ [e], rfl⟩
      have hu : (Reader.ofText source options).unread = a :: (body ++ [b]) ++ z :: zs := by
        rw [hreader, ← hz]
        simp
      have hlimits : (Reader.ofText source options).options.limits = options.limits := by
        rw [hreader]
      obtain ⟨hv, hleft⟩ := value_of_reaches (by rw [hreader]) hu (hlimits ▸ hreach)
      refine ⟨a, body, b, rest, rfl, hab, hbody, by rw [hv]; exact hread, ?_⟩
      rw [hleft, hz]
      rfl
  · obtain ⟨init, a, rfl, hg, ha⟩ := exists_opener hr
    have hopen : a.token.kind.opens = true := by
      rw [ha]
      cases g <;> rfl
    obtain ⟨body, b, rest, rfl, hbody, hab⟩ := hnested.exists_closer (by simpa using heq) hopen
    obtain ⟨v, hreach, hread⟩ := reaches_group hdepth hr hbody hab
    exact ⟨init, a, body, b, rest, v, rfl, rfl, hab, hbody, by simpa using hreach, hread⟩

/-- In the object a colon stands in the place of a member, which is null under the empty key; the
member in front of it and the item behind the object are kept. -/
theorem reads_nested_groups_colon :
    ∃ ss e, Scan.ofText Options.unlimited.dialect "[\x7b\"a\":\"b\",:\x7d,true]" = ss ++ [e] ∧
      Nested (fun _ => True) ss ∧
      (Reader.ofText "[\x7b\"a\":\"b\",:\x7d,true]" .unlimited).value.1 =
        .array [.object [("a", .string "b"), ("", .null)], .bool true] ∧
      ∃ span st entries, Reaches .unlimited (ss.take 2) (.opened (.object []) span) st ∧
        Reaches .unlimited (ss.take 8) (.ended (.object entries)) st ∧
        Entries.get? entries "a" = some (.string "b") := by
  obtain ⟨a, o, k, x, z, c, x', u, c', y, b, e, hscan, ha, ho, hk, hx, hz, hc, hx', hu, hc', hy,
      hb⟩ : ∃ a o k x z c x' u c' y b e,
        Scan.ofText Options.unlimited.dialect "[\x7b\"a\":\"b\",:\x7d,true]" =
          [a, o, k, x, z, c, x', u, c', y, b] ++ [e] ∧
        a.token.kind = .leftBracket ∧ o.token.kind = .leftBrace ∧
        (k.token.kind = .string ∧ k.token.payload = some (.string "a")) ∧
        x.token.kind = .colon ∧
        (z.token.kind = .string ∧ z.token.payload = some (.string "b")) ∧
        c.token.kind = .comma ∧ x'.token.kind = .colon ∧ u.token.kind = .rightBrace ∧
        c'.token.kind = .comma ∧
        (y.token.kind = .trueWord ∧ y.token.payload = some (.bool true)) ∧
        b.token.kind = .rightBracket := by
    refine ⟨⟨[], .bare .leftBracket ⟨⟨0, 1, 1⟩, ⟨1, 1, 2⟩⟩⟩,
      ⟨[], .bare .leftBrace ⟨⟨1, 1, 2⟩, ⟨2, 1, 3⟩⟩⟩,
      ⟨[], ⟨.string, ⟨⟨2, 1, 3⟩, ⟨5, 1, 6⟩⟩, some (.string "a")⟩⟩,
      ⟨[], .bare .colon ⟨⟨5, 1, 6⟩, ⟨6, 1, 7⟩⟩⟩,
      ⟨[], ⟨.string, ⟨⟨6, 1, 7⟩, ⟨9, 1, 10⟩⟩, some (.string "b")⟩⟩,
      ⟨[], .bare .comma ⟨⟨9, 1, 10⟩, ⟨10, 1, 11⟩⟩⟩,
      ⟨[], .bare .colon ⟨⟨10, 1, 11⟩, ⟨11, 1, 12⟩⟩⟩,
      ⟨[], .bare .rightBrace ⟨⟨11, 1, 12⟩, ⟨12, 1, 13⟩⟩⟩,
      ⟨[], .bare .comma ⟨⟨12, 1, 13⟩, ⟨13, 1, 14⟩⟩⟩,
      ⟨[], ⟨.trueWord, ⟨⟨13, 1, 14⟩, ⟨17, 1, 18⟩⟩, some (.bool true)⟩⟩,
      ⟨[], .bare .rightBracket ⟨⟨17, 1, 18⟩, ⟨18, 1, 19⟩⟩⟩, ⟨[], .atEnd ⟨18, 1, 19⟩⟩, ?_, rfl, rfl,
      ⟨rfl, rfl⟩, rfl, ⟨rfl, rfl⟩, rfl, rfl, rfl, rfl, ⟨rfl, rfl⟩, rfl⟩
    decide +kernel
  -- the brackets are nested
  have hinner : Nested (fun _ => True) [k, x, z, c, x'] :=
    .of_forall (by simp [hk, hx, hz, hc, hx', Kind.opens, Kind.closes])
  have hbody : Nested (fun _ => True) ([o] ++ [k, x, z, c, x'] ++ [u, c', y]) :=
    .group (by simp [ho, hu, bracketPairs]) hinner
      (.of_forall (by simp [hc', hy, Kind.opens, Kind.closes]))
  have hnested : Nested (fun _ => True) [a, o, k, x, z, c, x', u, c', y, b] :=
    .group (by simp [ha, hb, bracketPairs]) hbody .nil
  obtain ⟨⟨a', body, b', rest, heq, hab, -, hread, -⟩, hinside⟩ :=
    reads_nested_groups rfl rfl hscan hnested ⟨a, rfl, by rw [ha]; rfl⟩
  refine ⟨_, e, hscan, hnested, ?_, ?_⟩
  · obtain ⟨rfl, hrest⟩ := List.cons.inj heq
    have hb' : b'.token.kind = .rightBracket := by simpa [ha, bracketPairs] using hab
    obtain ⟨rfl, rfl⟩ := eq_of_append_cons [o, k, x, z, c, x', u, c', y] [] hrest
      (by simp [hb', ho, hk, hx, hz, hc, hx', hu, hc', hy]) (by simp)
    have hslots : filledSlots [o, k, x, z, c, x', u, c', y] = [[o, k, x, z, c, x', u], [y]] := by
      simp [filledSlots, slots, slotsOnto, nest, Kind.opens, Kind.closes, ho, hk, hx, hz, hc, hx',
        hu, hc', hy]
    obtain ⟨items, hitems, hall⟩ := hread.1 ha
    rw [hslots] at hall
    have htrue : Sentence Terminals.scan [y] (.value (.bool true)) := .bool ⟨y, rfl, hy⟩
    cases hall with
    | @cons _ v _ _ _ hall =>
      cases hall with
      | cons hw hnil =>
        cases hnil
        rw [hw _ htrue] at hitems
        -- The first slot is no sentence, so its item is computed.
        have hobject : (Reader.ofText "[\x7b\"a\":\"b\",:\x7d,true]" .unlimited).value.1.step
            (.index 0) = .object [("a", .string "b"), ("", .null)] := by with_unfolding_all rfl
        rw [hitems] at hobject ⊢
        exact congrArg (Value.array [·, .bool true]) hobject
  · obtain ⟨span, hopen⟩ := passes_opener .unlimited (g := .array []) (.inl rfl) ⟨a, rfl, ha⟩ []
    obtain ⟨span', henter⟩ := passes_opener .unlimited (g := .object []) (.inr rfl) ⟨o, rfl, ho⟩
      [.item []]
    have hne : o.token.kind ≠ (Group.array []).closer := by simp [ho, Group.closer]
    have hreach : Reaches .unlimited [a, o] (.opened (.object []) span') [.item []] :=
      ⟨_, hopen.append ((Starts.opened span).passes rfl hne henter)⟩
    obtain ⟨init, o', body, u', rest, v, hpre, hpost, hou, -, hend, hobj⟩ :=
      hinside [a, o] [k, x, z, c, x', u, c', y, b] _ _ _ rfl hreach
    have hsplit : [a] ++ [o] = init ++ [o'] := hpre
    obtain ⟨rfl, ⟨⟩⟩ := List.append_inj' hsplit rfl
    have hu' : u'.token.kind = .rightBrace := by simpa [ho, bracketPairs] using hou
    obtain ⟨rfl, rfl⟩ := eq_of_append_cons [k, x, z, c, x'] [c', y, b] hpost
      (by simp [hu', hk, hx, hz, hc, hx']) (by simp [hu', hc', hy, hb])
    have hslots : filledSlots [k, x, z, c, x'] = [[k, x, z], [x']] := by
      simp [filledSlots, slots, slotsOnto, nest, Kind.opens, Kind.closes, hk, hx, hz, hc, hx']
    obtain ⟨entries, rfl, hmembers⟩ := hobj.2 ho
    refine ⟨span', [.item []], entries, hreach, hend, ?_⟩
    have hkey : Terminals.scan.scalar (.string "a") [k] := ⟨k, rfl, hk⟩
    refine hmembers [] [k, x, z] [[x']] "a" _ hslots
      (.member hkey ⟨x, rfl, hx⟩ (.string ⟨z, rfl, hz⟩)) ?_
    simp [MayWrite, firstString, hx']

end Json

end Resilient
