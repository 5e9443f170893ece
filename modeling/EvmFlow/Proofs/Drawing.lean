import EvmFlow.Proofs.Multigraph
import EvmFlow.Proofs.PassSuccess
import EvmFlow.Report.Dot

/-!
# Drawings

A drawing is read line by line, and a label from the quote that opens it to the quote that closes
it. No text in a label ends either of them too early, since a quote and a backslash stand behind a
backslash and a line end is written with a letter. So a drawing has one line for each node and for
each edge of its graph, whatever the blocks show.

* `Dot.Token`, `Dot.Tokenized`: what an escaped text is made of;
* `Dot.replaced`, `Dot.toList_escape_eq_replaced`: escaping is three replacements in turn;
* `Dot.readLabel`, **`Dot.readLabel_escape`**: reading a label gives its text back, and stops at the
  quote that closes it;
* `Dot.Plain`, `Dot.plain_toString`: text that ends neither a line nor a label;
* `splitOn_joinLines`: the lines of a text;
* `Program.exists_formatBlock`, `Program.exists_shape`: the nodes of a checked program can be drawn;
* `Program.NodeLine`, `Program.EdgeLine`, `Program.Drawn`: the lines of a drawing, and
  `Program.exists_dot`: a checked program has one;
* **`Program.dot_wellDelimited`**: escaped texts stay inside of their labels, and after all passes a
  drawing has a line for each node and each edge.
-/

namespace EvmFlow

namespace Dot

/-! ## Escaped text -/

/-- What a character of a text becomes in a label. -/
inductive Token : List Char → Prop
  | backslash : Token ['\\', '\\']
  | quote : Token ['\\', '"']
  | lineEnd : Token ['\\', 'l']
  | plain {c : Char} (backslash : c ≠ '\\') (quote : c ≠ '"') (lineEnd : c ≠ '\n') : Token [c]

/-- A text made of tokens. -/
def Tokenized (text : List Char) : Prop :=
  ∃ tokens : List (List Char), text = tokens.flatten ∧ ∀ t ∈ tokens, Token t

theorem token_escapeChar (c : Char) : Token (escapeChar c) := by
  unfold escapeChar
  split_ifs with hbackslash hquote hend
  · exact .backslash
  · exact .quote
  · exact .lineEnd
  · exact .plain hbackslash hquote hend

theorem toList_escape (s : String) : (escape s).toList = s.toList.flatMap escapeChar :=
  String.toList_ofList

theorem tokenized_escape (s : String) : Tokenized (escape s).toList := by
  refine ⟨s.toList.map escapeChar, by rw [toList_escape, List.flatMap_def], fun t ht => ?_⟩
  obtain ⟨c, -, rfl⟩ := List.mem_map.mp ht
  exact token_escapeChar c

theorem Token.newline_not_mem {t : List Char} (h : Token t) : '\n' ∉ t := by
  cases h with
  | backslash => decide
  | quote => decide
  | lineEnd => decide
  | plain _ _ lineEnd => exact fun hmem => lineEnd (List.mem_singleton.mp hmem).symm

theorem Tokenized.newline_not_mem {text : List Char} (h : Tokenized text) : '\n' ∉ text := by
  obtain ⟨tokens, rfl, htokens⟩ := h
  intro hmem
  obtain ⟨t, ht, hmem⟩ := List.mem_flatten.mp hmem
  exact (htokens t ht).newline_not_mem hmem

/-! ## One replacement after the other -/

/-- A text with `word` in the place of every `c`. -/
def replaced (c : Char) (word text : List Char) : List Char :=
  text.flatMap fun d => if d = c then word else [d]

/-- **Escaping is three replacements in turn.** The backslashes come first, so that those which the
other two put in stay single. -/
theorem toList_escape_eq_replaced (s : String) : (escape s).toList =
    replaced '\n' ['\\', 'l'] (replaced '"' ['\\', '"'] (replaced '\\' ['\\', '\\'] s.toList)) := by
  rw [toList_escape, replaced, replaced, replaced, List.flatMap_assoc, List.flatMap_assoc]
  congr 1
  funext c
  -- What one replacement puts in for `c` holds no character that a later one looks for.
  unfold escapeChar
  split_ifs with hbackslash hquote hend
  · rfl
  · rw [hquote]
    rfl
  · rw [hend]
    rfl
  · simp [hquote, hend]

-- With the quotes first, the backslash in front of a quote is doubled, and the quote stands alone.
example : replaced '\\' ['\\', '\\'] (replaced '"' ['\\', '"'] ['"']) = ['\\', '\\', '"'] := by
  decide

/-! ## Reading a label -/

/-- Reads a label up to the quote that closes it: the text that it stands for, and what follows the
quote. A backslash makes one sign with the character behind it. -/
def readLabel : List Char → Option (List Char × List Char)
  | [] => none
  | '"' :: rest => some ([], rest)
  | '\\' :: c :: rest => (readLabel rest).map (Prod.map ((if c = 'l' then '\n' else c) :: ·) id)
  | c :: rest => (readLabel rest).map (Prod.map (c :: ·) id)

theorem readLabel_escapeChar (c : Char) (rest : List Char) :
    readLabel (escapeChar c ++ rest) = (readLabel rest).map (Prod.map (c :: ·) id) := by
  unfold escapeChar
  split_ifs with hbackslash hquote hend
  · rw [hbackslash]
    rfl
  · rw [hquote]
    rfl
  · rw [hend]
    rfl
  · rw [List.singleton_append, readLabel]
    · exact hquote
    · exact fun _ _ h => absurd h hbackslash

/-- **Reading a label gives its text back**, and what follows the quote that closes it. -/
theorem readLabel_escape (s : String) (rest : List Char) :
    readLabel ((escape s).toList ++ '"' :: rest) = some (s.toList, rest) := by
  rw [toList_escape]
  induction s.toList with
  | nil => rfl
  | cons c text ih =>
    rw [List.flatMap_cons, List.append_assoc, readLabel_escapeChar, ih]
    rfl

theorem escape_injective : Function.Injective escape := by
  intro s t h
  have hs := readLabel_escape s []
  rw [h, readLabel_escape t []] at hs
  exact (String.toList_inj.mp (Prod.mk.inj (Option.some.inj hs)).1).symm

/-! ## Plain text -/

/-- A text that ends neither a line nor a label. -/
def Plain (text : List Char) : Prop := '\n' ∉ text ∧ '"' ∉ text

instance (text : List Char) : Decidable (Plain text) :=
  inferInstanceAs (Decidable ('\n' ∉ text ∧ '"' ∉ text))

@[simp]
theorem plain_append {a b : List Char} : Plain (a ++ b) ↔ Plain a ∧ Plain b := by
  simp only [Plain, List.mem_append, not_or]
  exact and_and_and_comm

theorem plain_repr (n : Nat) : Plain n.repr.toList := by
  have hdigit : ∀ c ∈ n.repr.toList, c.isDigit = true := by
    intro c hc
    rw [Nat.toList_repr] at hc
    exact Nat.isDigit_of_mem_toDigits (by decide) (by decide) hc
  exact ⟨fun h => absurd (hdigit _ h) (by decide), fun h => absurd (hdigit _ h) (by decide)⟩

theorem plain_toString (n : Int) : Plain (toString n).toList := by
  cases n with
  | ofNat n => exact plain_repr n
  | negSucc n =>
    change Plain ("-" ++ (n + 1).repr).toList
    rw [String.toList_append, plain_append]
    exact ⟨by decide, plain_repr (n + 1)⟩

end Dot

/-! ## Lines -/

theorem toList_joinLines (lines : List String) : (joinLines lines).toList =
    ['\n'].intercalate (lines.map String.toList ++ [[]]) := by
  rw [joinLines, String.toList_join, List.flatMap_map]
  induction lines with
  | nil => rfl
  | cons l lines ih =>
    rw [List.flatMap_cons, ih, String.toList_append, List.map_cons, List.cons_append,
      List.intercalate_cons_of_ne_nil (List.concat_ne_nil _ _)]
    rfl

/-- Lines that are joined are found again between the line ends, and nothing behind the last. -/
theorem splitOn_joinLines {lines : List String} (h : ∀ l ∈ lines, '\n' ∉ l.toList) :
    (joinLines lines).toList.splitOn '\n' = lines.map String.toList ++ [[]] := by
  rw [toList_joinLines]
  refine List.splitOn_intercalate '\n' (fun l hl => ?_) (List.concat_ne_nil _ _)
  rcases List.mem_append.mp hl with hl | hl
  · obtain ⟨line, hline, rfl⟩ := List.mem_map.mp hl
    exact h line hline
  · rw [List.mem_singleton.mp hl]
    exact List.not_mem_nil

/-! ## What can be shown -/

theorem SymbolTable.exists_render {t : SymbolTable} {ref : SymbolRef} (h : t.Knows ref) :
    ∃ text, t.render ref = .ok text := by
  obtain ⟨id, hid⟩ := h
  obtain ⟨s, hs, -⟩ := exists_symbol_of_identity? hid
  exact exists_bind ⟨s, hs⟩ fun _ => ⟨_, rfl⟩

theorem Instruction.exists_renderParameters {t : SymbolTable} {parameters : List SymbolRef}
    (h : ∀ x ∈ parameters, t.Knows x) : ∃ text, renderParameters t parameters = .ok text :=
  exists_bind (exists_mapM fun x hx => SymbolTable.exists_render (h x hx)) fun _ => ⟨_, rfl⟩

/-- An instruction can be shown if its symbols are known. -/
theorem Instruction.exists_render {t : SymbolTable} {i : Instruction}
    (h : ∀ x ∈ i.symbols, t.Knows x) : ∃ text, i.render t = .ok text := by
  have hk : i.symbols.Forall fun x => ∃ text, t.render x = .ok text :=
    List.forall_iff_forall_mem.mpr fun x hx => SymbolTable.exists_render (h x hx)
  cases i with
  | nop => exact ⟨_, rfl⟩
  | binary x op y z =>
    obtain ⟨hx, hy, hz⟩ := hk
    exact exists_bind hx fun _ => exists_bind hy fun _ => exists_bind hz fun _ => ⟨_, rfl⟩
  | unary x op y =>
    obtain ⟨hx, hy⟩ := hk
    exact exists_bind hx fun _ => exists_bind hy fun _ => ⟨_, rfl⟩
  | branch target => exact exists_bind hk fun _ => ⟨_, rfl⟩
  | condBranch condition target =>
    obtain ⟨hcondition, htarget⟩ := hk
    exact exists_bind hcondition fun _ => exists_bind htarget fun _ => ⟨_, rfl⟩
  | procedure g parameters => exact exists_bind (exists_renderParameters h) fun _ => ⟨_, rfl⟩
  | function g x parameters =>
    have hx := SymbolTable.exists_render (h x List.mem_cons_self)
    have hparameters := exists_renderParameters fun y hy => h y (List.mem_cons_of_mem x hy)
    exact exists_bind hx fun _ => exists_bind hparameters fun _ => ⟨_, rfl⟩
  | copy x y =>
    obtain ⟨hx, hy⟩ := hk
    exact exists_bind hx fun _ => exists_bind hy fun _ => ⟨_, rfl⟩
  | indexedAssign x index y =>
    obtain ⟨hx, hindex, hy⟩ := hk
    exact exists_bind hx fun _ => exists_bind hindex fun _ => exists_bind hy fun _ => ⟨_, rfl⟩
  | indexedCopy x y index =>
    obtain ⟨hx, hy, hindex⟩ := hk
    exact exists_bind hx fun _ => exists_bind hy fun _ => exists_bind hindex fun _ => ⟨_, rfl⟩

namespace Program

variable {p : Program} {n : NodeId} {b : BasicBlock}

theorem exists_offset {i : Int} (hi : 0 ≤ i) : ∃ k, p.offset i = .ok k := by
  obtain ⟨k, rfl⟩ := Int.eq_ofNat_of_zero_le hi
  unfold offset
  split
  · exact ⟨_, rfl⟩
  · exact ⟨_, rfl⟩

theorem exists_formatBlock (hb : p.graph.label? n = some b) (h : p.Fits b) (format : BlockFormat) :
    ∃ body, p.formatBlock n format = .ok body := by
  cases format with
  | bare => exact ⟨"", rfl⟩
  | bytecode =>
    exact exists_bind ⟨_, (opcodes_eq_ok hb).mpr ⟨h.span, rfl⟩⟩ fun _ => ⟨_, rfl⟩
  | ir =>
    have hlines : ∃ lines, p.codeLines n = .ok lines := by
      obtain ⟨lines, hlines⟩ := exists_mapM fun i hi => Instruction.exists_render (h.known i hi)
      exact ⟨lines, bind_eq_ok.mpr ⟨b, Graph.label_eq_ok.mpr hb, hlines⟩⟩
    exact exists_bind hlines fun _ => ⟨_, rfl⟩

/-- Every live node of a checked program can be drawn. -/
theorem exists_shape (h : p.Verified) (hn : p.graph.contains n = true) (format : BlockFormat) :
    ∃ s, p.shape format n = .ok s := by
  unfold shape
  split_ifs with hterminator hstart hinvalid htable
  · exact ⟨_, rfl⟩
  · exact ⟨_, rfl⟩
  · exact ⟨_, rfl⟩
  · exact ⟨_, rfl⟩
  · -- A block: its range lies in the code, and the symbols of its instructions are known.
    obtain ⟨b, hb⟩ := Graph.contains_iff_label?.mp hn
    have hreal : p.isSentinel n = false := by
      simp [isSentinel, Sentinels.toList, hterminator, hstart, hinvalid, htable]
    have hfits := h.block n b hb hreal
    have hspan := hfits.span
    simp only [hasSpan, Bool.and_eq_true, decide_eq_true_eq] at hspan
    obtain ⟨start, hstart⟩ := exists_offset (p := p) (i := b.opcodes.start) (by omega)
    obtain ⟨stop, hstop⟩ := exists_offset (p := p) (i := b.opcodes.stop) (by omega)
    obtain ⟨body, hbody⟩ := exists_formatBlock hb hfits format
    exact ⟨_, bind_eq_ok.mpr ⟨b, Graph.label_eq_ok.mpr hb, bind_eq_ok.mpr ⟨start, hstart,
      bind_eq_ok.mpr ⟨stop, hstop, bind_eq_ok.mpr ⟨body, hbody, rfl⟩⟩⟩⟩⟩

/-- Only the label of a node depends on the code. -/
theorem plain_of_shape {format : BlockFormat} {s : Dot.Shape} (h : p.shape format n = .ok s) :
    Dot.Plain s.color.toList ∧ Dot.Plain s.shape.toList := by
  unfold shape at h
  split_ifs at h
  · obtain rfl := Except.ok.inj h
    decide
  · obtain rfl := Except.ok.inj h
    decide
  · obtain rfl := Except.ok.inj h
    decide
  · obtain rfl := Except.ok.inj h
    decide
  · obtain ⟨b, -, h⟩ := bind_eq_ok.mp h
    obtain ⟨start, -, h⟩ := bind_eq_ok.mp h
    obtain ⟨stop, -, h⟩ := bind_eq_ok.mp h
    obtain ⟨body, -, h⟩ := bind_eq_ok.mp h
    obtain rfl := Except.ok.inj h
    have hplain : Dot.Plain "black".toList ∧ Dot.Plain "rectangle".toList := by decide
    exact hplain

/-! ## The lines of a drawing -/

/-- The line of a node: its number, how it is drawn, and its label. What stands behind the first
quote reads as the label, up to the bracket that ends the line. -/
def NodeLine (p : Program) (format : BlockFormat) (n : NodeId) (line : String) : Prop :=
  ∃ s, p.shape format n = .ok s ∧
    line = s!"    {n} [ color={s.color} shape={s.shape} label=\"" ++ Dot.escape s.label ++ "\" ]" ∧
    ∃ head body, line.toList = head ++ '"' :: body ∧ '"' ∉ head ∧
      Dot.readLabel body = some (s.label.toList, [' ', ']'])

/-- The line of an edge: its ends, and a dashed stroke if it is dynamic. -/
def EdgeLine (p : Program) (e : EdgeId) (line : String) : Prop :=
  ∃ x, p.graph.edge? e = some x ∧
    line = s!"    {x.source} -> {x.target} [ style=" ++
      (if x.branch = .dynamic then "dashed" else "solid") ++ " ]"

/-- The lines of a drawing: one for each live node and one for each live edge, in the order of their
numbers, between the line that opens the drawing and the line that closes it. -/
def Drawn (p : Program) (format : BlockFormat) (lines : List String) : Prop :=
  ∃ nodes edges, lines = ["digraph \x7b"] ++ nodes ++ edges ++ ["\x7d"] ∧
    List.Forall₂ (p.NodeLine format) p.graph.nodeIds nodes ∧
    List.Forall₂ p.EdgeLine p.graph.edgeIds edges

section

variable {format : BlockFormat} {line : String} {lines : List String}

/-- Up to the quote that opens its label, the line of a node is plain. -/
theorem exists_plain_head {s : Dot.Shape} (hs : p.shape format n = .ok s) :
    ∃ head, Dot.Plain head ∧
      (s!"    {n} [ color={s.color} shape={s.shape} label=\"" ++ Dot.escape s.label
        ++ "\" ]").toList = head ++ '"' :: ((Dot.escape s.label).toList ++ '"' :: [' ', ']']) := by
  obtain ⟨hcolor, hshape⟩ := plain_of_shape hs
  refine ⟨(s!"    {n} [ color={s.color} shape={s.shape} label=").toList, ?_, ?_⟩
  · simp only [String.toList_append, Dot.plain_append, and_assoc]
    exact ⟨by decide, Dot.plain_toString n, by decide, hcolor, by decide, hshape, by decide⟩
  · have hopen : " label=\"".toList = " label=".toList ++ ['"'] := by decide
    have hclose : "\" ]".toList = ['"', ' ', ']'] := by decide
    simp only [toString, String.toList_append, List.append_assoc, hopen, hclose,
      List.cons_append, List.nil_append]

theorem nodeLine_of_dotNode (h : p.dotNode format n = .ok line) : p.NodeLine format n line := by
  obtain ⟨s, hs, h⟩ := bind_eq_ok.mp h
  obtain rfl := Except.ok.inj h
  obtain ⟨head, hhead, hline⟩ := exists_plain_head hs
  exact ⟨s, hs, rfl, head, _, hline, hhead.2, Dot.readLabel_escape s.label _⟩

theorem NodeLine.newline_not_mem (h : p.NodeLine format n line) : '\n' ∉ line.toList := by
  obtain ⟨s, hs, rfl, -⟩ := h
  obtain ⟨head, hhead, hline⟩ := exists_plain_head hs
  have hlabel := (Dot.tokenized_escape s.label).newline_not_mem
  rw [hline]
  simp [hhead.1, hlabel]

theorem edgeLine_dotEdge {e : EdgeId} {x : Graph.Edge} (h : p.graph.edge? e = some x) :
    p.EdgeLine e (dotEdge x) := by
  refine ⟨x, h, ?_⟩
  unfold dotEdge
  cases x.branch <;> rfl

theorem EdgeLine.plain {e : EdgeId} (h : p.EdgeLine e line) : Dot.Plain line.toList := by
  obtain ⟨x, -, rfl⟩ := h
  have hstyle : Dot.Plain (if x.branch = .dynamic then "dashed" else "solid").toList := by
    split <;> decide
  simp only [String.toList_append, Dot.plain_append, and_assoc]
  exact ⟨by decide, Dot.plain_toString _, by decide, Dot.plain_toString _, by decide, hstyle,
    by decide⟩

theorem Drawn.newline_not_mem (h : p.Drawn format lines) : ∀ l ∈ lines, '\n' ∉ l.toList := by
  obtain ⟨nodes, edges, rfl, hnodes, hedges⟩ := h
  intro l hl
  simp only [List.mem_append, List.mem_singleton] at hl
  obtain ((rfl | hl) | hl) | rfl := hl
  · decide
  · obtain ⟨n, -, hline⟩ := exists_of_mem_forall₂ hnodes hl
    exact hline.newline_not_mem
  · obtain ⟨e, -, hline⟩ := exists_of_mem_forall₂ hedges hl
    exact hline.plain.1
  · decide

theorem Drawn.length_eq (h : p.Drawn format lines) (hp : p.graph.Counted) :
    lines.length = p.graph.nodeCount + p.graph.edgeCount + 2 := by
  obtain ⟨nodes, edges, rfl, hnodes, hedges⟩ := h
  rw [hp.nodes, hp.edges, hnodes.length_eq, hedges.length_eq]
  simp only [List.length_append, List.length_singleton]
  omega

end

/-- **A checked program can be drawn**, in lines of its nodes and edges. -/
theorem exists_dot (h : p.Verified) (format : BlockFormat) :
    ∃ lines, p.dot format = .ok (joinLines lines) ∧ p.Drawn format lines := by
  have hlines : ∃ nodes, p.graph.nodeIds.mapM (p.dotNode format) = .ok nodes :=
    exists_mapM fun n hn => exists_bind (exists_shape h (Graph.mem_nodeIds.mp hn) format)
      fun _ => ⟨_, rfl⟩
  obtain ⟨nodes, hnodes⟩ := hlines
  have hlive : ∀ e ∈ p.graph.edgeIds, ∃ x, p.graph.edge? e = some x :=
    fun e he => Graph.mem_edgeIds.mp he
  refine ⟨_, bind_eq_ok.mpr ⟨nodes, hnodes, rfl⟩, nodes, _, rfl, ?_, ?_⟩
  · exact (mapM_eq_ok.mp hnodes).imp fun n line hline => nodeLine_of_dotNode hline
  · refine List.forall₂_map_right_iff.mpr ?_
    exact (mapM_eq_ok.mp (Graph.mapM_edge hlive)).imp fun e x hx =>
      edgeLine_dotEdge (Graph.edge_eq_ok.mp hx)

/-- **Drawings are well delimited.** Escaping a text replaces backslashes, quotes and line ends one
after the other, and leaves escape sequences and plain characters only. So the text neither ends the
line nor the label that it stands in, and no other text looks the same there. Whatever built-in
passes run on the program of a code, what they leave can be drawn with every kind of blocks: between
its opening and its closing line, the drawing has one line for each node and one for each edge, each
ended by a line end, and nothing else. -/
theorem dot_wellDelimited :
    (∀ s : String, (Dot.escape s).toList = Dot.replaced '\n' ['\\', 'l']
        (Dot.replaced '"' ['\\', '"'] (Dot.replaced '\\' ['\\', '\\'] s.toList)) ∧
      Dot.Tokenized (Dot.escape s).toList ∧ '\n' ∉ (Dot.escape s).toList ∧
      ∀ rest, Dot.readLabel ((Dot.escape s).toList ++ '"' :: rest) = some (s.toList, rest)) ∧
    Function.Injective Dot.escape ∧
    ∀ instrs : List Instr, ∃ p, build instrs = .ok p ∧
      ∀ passes : List Pass, (∀ pass ∈ passes, pass = .deadCode ∨ pass = .lift) →
        ∃ q, p.runAll passes = (q, .ok ()) ∧ ∀ format : BlockFormat, ∃ text lines,
          q.dot format = .ok text ∧
          text.toList.splitOn '\n' = lines.map String.toList ++ [[]] ∧
          lines.length = q.graph.nodeCount + q.graph.edgeCount + 2 ∧ q.Drawn format lines := by
  refine ⟨fun s => ⟨Dot.toList_escape_eq_replaced s, Dot.tokenized_escape s,
    (Dot.tokenized_escape s).newline_not_mem, Dot.readLabel_escape s⟩, Dot.escape_injective, ?_⟩
  intro instrs
  obtain ⟨p, hp, hruns⟩ := exists_steps_runAll instrs
  refine ⟨p, hp, fun passes hpasses => ?_⟩
  obtain ⟨q, hq, hsteps⟩ := hruns passes hpasses
  refine ⟨q, hq, fun format => ?_⟩
  have hsound := hsteps.sound (sound_ofInstrs instrs)
  obtain ⟨lines, hdot, hdrawn⟩ := exists_dot hsound.verified format
  exact ⟨_, lines, hdot, splitOn_joinLines hdrawn.newline_not_mem,
    hdrawn.length_eq hsound.graph.counted, hdrawn⟩

/-- A jump over a block, to a block with an opcode that is not defined. -/
def jumpOver : List Instr := decode [0x60, 4, 0x56, 0x00, 0x5b, 0x0c]

theorem dot_wellDelimited_jumpOver :
    (∀ pass ∈ [Pass.lift, .deadCode], pass = .deadCode ∨ pass = .lift) ∧
      Dot.readLabel ((Dot.escape "\"\\\n").toList ++ ['"', ' ', ']']) =
        some (['"', '\\', '\n'], [' ', ']']) ∧
      ∃ p q text lines, build jumpOver = .ok p ∧ p.runAll [.lift, .deadCode] = (q, .ok ()) ∧
        q.graph.nodeIds = [0, 1, 2, 3, 4, 6] ∧ q.graph.edgeCount = 5 ∧ q.dot .ir = .ok text ∧
        text.toList.splitOn '\n' = lines.map String.toList ++ [[]] ∧ lines.length = 13 ∧
        q.Drawn .ir lines := by
  have hpasses : ∀ pass ∈ [Pass.lift, .deadCode], pass = .deadCode ∨ pass = .lift := by simp
  have hgraph : (build jumpOver).toOption.map (fun p =>
      ((p.runAll [.lift, .deadCode]).1.graph.nodeIds,
        (p.runAll [.lift, .deadCode]).1.graph.nodeCount,
        (p.runAll [.lift, .deadCode]).1.graph.edgeCount)) = some ([0, 1, 2, 3, 4, 6], 6, 5) := by
    decide +kernel
  obtain ⟨hescape, -, hall⟩ := dot_wellDelimited
  obtain ⟨p, hp, hruns⟩ := hall jumpOver
  obtain ⟨q, hq, hdots⟩ := hruns _ hpasses
  obtain ⟨text, lines, hdot, hlines, hlength, hdrawn⟩ := hdots .ir
  rw [hp] at hgraph
  obtain ⟨hnodes, hcounts⟩ := Prod.mk.inj (Option.some.inj hgraph)
  obtain ⟨hnodeCount, hedgeCount⟩ := Prod.mk.inj hcounts
  rw [hq] at hnodes hnodeCount hedgeCount
  rw [hnodeCount, hedgeCount] at hlength
  exact ⟨hpasses, (hescape _).2.2.2 _, p, q, text, lines, hp, hq, hnodes, hedgeCount, hdot, hlines,
    hlength, hdrawn⟩

end Program

end EvmFlow
