import Pipewright.Binding.Basic

/-! The script of a process: the function behind a command line. -/
namespace Pipewright

structure Script where
  /-- The directory added to the module path. -/
  packagesDir : String
  imports : List String
  /-- Sources of functions that the function may use. -/
  helpers : List String
  functionSource : String
  binding : Binding
  /-- The settings of the arguments as JSON text, if the script carries them. -/
  overrides : Option String
  /-- The command that results are sent to. -/
  saveCommand : List String

namespace Script

/-- What every script defines for its command line and its results. -/
def supportLines : List String := [
  "",
  "class _ExtendAction(argparse.Action):",
  "    \"\"\"Accumulate repeated and comma separated values into one list.\"\"\"",
  "",
  "    def __call__(self, parser, namespace, values, option_string=None):",
  "        items = getattr(namespace, self.dest, None)",
  "        if not isinstance(items, list) or items is self.default:",
  "            items = []",
  "        for v in values:",
  "            items += v",
  "        setattr(namespace, self.dest, items)",
  "",
  "",
  "def _split(s):",
  "    return s.split(',')",
  "",
  "",
  "def _int_split(s):",
  "    out = []",
  "    for e in s.split(','):",
  "        try:",
  "            out.append(int(e))",
  "        except ValueError:",
  "            out.append(0)",
  "    return out",
  "",
  "",
  "def _float_split(s):",
  "    out = []",
  "    for e in s.split(','):",
  "        try:",
  "            out.append(float(e))",
  "        except ValueError:",
  "            out.append(0.0)",
  "    return out",
  "",
  "",
  "_IMAGE_FORMATS = ('png', 'pdf', 'svg', 'jpg', 'jpeg', 'eps', 'ps', 'pgf', 'tif', 'tiff')",
  "",
  "",
  "def _encode(value, destination=None):",
  "    try:",
  "        import pandas as pd",
  "        if isinstance(value, pd.DataFrame):",
  "            return \x7b'__table__': \x7b",
  "                'index': [str(i) for i in value.index],",
  "                'columns': [str(c) for c in value.columns],",
  "                'data': json.loads(value.to_json(orient='values')),",
  "            \x7d\x7d",
  "    except ImportError:",
  "        pass",
  "    figure = value if hasattr(value, 'savefig') else getattr(value, 'figure', None)",
  "    if figure is not None and hasattr(figure, 'savefig'):",
  "        import base64, io",
  "        fmt = 'png'",
  "        if destination is not None and destination.split('.')[-1] in _IMAGE_FORMATS:",
  "            fmt = destination.split('.')[-1]",
  "        buffer = io.BytesIO()",
  "        figure.savefig(buffer, format=fmt)",
  "        return \x7b'__plot__': \x7b'format': fmt, 'data': " ++
    "base64.b64encode(buffer.getvalue()).decode('ascii')\x7d\x7d",
  "    if isinstance(value, dict):",
  "        return \x7bstr(k): _encode(v) for k, v in value.items()\x7d",
  "    if isinstance(value, (list, tuple, set)):",
  "        return [_encode(v) for v in value]",
  "    if hasattr(value, 'tolist'):",
  "        return _encode(value.tolist())",
  "    if value is None or isinstance(value, (str, int, float, bool)):",
  "        return value",
  "    return str(value)",
  ""]

def support : String := joined "\n" supportLines

/-- Texts as a list literal. -/
def quotedList (items : List String) : String := "[" ++ joined ", " (items.map quoted) ++ "]"

/-- The number of words as a literal: a natural number or a text. -/
def nargsLiteral (s : String) : String :=
  let digits := match s.toList with
    | '+' :: cs => cs
    | cs => cs
  match Text.number? 10 digits with
  | some n => if n < Nat.pow 2 32 then toString n else quoted s
  | none => quoted s

def typeParts : ArgumentKind → List String
  | .str => []
  | .int => ["type=int"]
  | .float => ["type=float"]
  | .list | .strList => ["type=_split"]
  | .intList => ["type=_int_split"]
  | .floatList => ["type=_float_split"]

/-- What declares one argument. -/
def argumentParts (a : Argument) : List String :=
  (if a.isPositional then [quoted a.dest] else a.flags.map quoted ++ ["dest=" ++ quoted a.dest]) ++
    typeParts a.kind ++
    (match a.nargs with
      | some n => ["nargs=" ++ nargsLiteral n]
      | none => if a.kind.isList then ["nargs='*'"] else []) ++
    (if a.kind.isList then ["action='exappend'"] else []) ++
    (match a.default with
      | some v => if a.isPositional then [] else ["default=" ++ v.script]
      | none => []) ++
    ["help=" ++ quoted a.help]

/-- A statement of the main function. -/
def statement (s : String) : String := "    " ++ s ++ "\n"

def addArgument (parts : List String) : String :=
  statement ("parser.add_argument(" ++ joined ", " parts ++ ")")

def parserText (b : Binding) : String :=
  statement ("parser = argparse.ArgumentParser(description=" ++ quoted b.description ++
      ", formatter_class=argparse.RawTextHelpFormatter)") ++
    statement "parser.register('action', 'exappend', _ExtendAction)" ++
    (if b.version.isSome then
      addArgument ["'-version'", "'--version'", "action='version'", "version=__version__",
        "help='Displays script version if supplied'"]
    else "") ++
    addArgument ["'-i'", "'--inspect'", "action='version'", "version=" ++ quoted b.inspectDoc,
      "help='Shows what functions are defined'"] ++
    addArgument ["'-p'", "'--peek'", "dest='displayMax'",
      "help='Peek into the results by printing or saving the first N lines only'"] ++
    joined "" (b.arguments.map fun a => addArgument (argumentParts a))

/-- The arguments of the call: by position, what is left over, by keyword. -/
def callArguments (b : Binding) : List String :=
  let inputs := b.inputArguments
  ((inputs.filter fun a => !a.keyword).map fun a => "args." ++ a.dest) ++
    (if b.restParam.isSome then ["*rest"] else []) ++
    ((inputs.filter fun a => a.keyword).map fun a => a.param ++ "=args." ++ a.dest)

def callText (b : Binding) : String :=
  statement (if b.restParam.isSome then "args, rest = parser.parse_known_args()"
      else "args = parser.parse_args()") ++
    statement ("results = " ++ b.function ++ "(" ++ joined ", " (callArguments b) ++ ")") ++
    statement "if results is None:" ++ statement "    return"

def saveText (s : Script) : String :=
  let outputs := s.binding.outputs.map fun o => (o.map quoted).getD "None"
  statement ("outputs = [" ++ joined ", " outputs ++ "]") ++
    statement (if 1 < outputs.length then "values = list(results)" else "values = [results]") ++
    statement "payload = []" ++
    statement "for i, value in enumerate(values):" ++
    statement ("    destination = getattr(args, outputs[i])" ++
      " if i < len(outputs) and outputs[i] else None") ++
    statement ("    payload.append(\x7b'destination': destination, " ++
      "'value': _encode(value, destination)\x7d)") ++
    statement ("command = " ++ quotedList s.saveCommand) ++
    statement "if args.displayMax:" ++
    statement "    command += ['--peek', args.displayMax]" ++
    statement "subprocess.run(command, input=json.dumps(payload), text=True, check=True)" ++
    statement "return"

def mainText (s : Script) : String :=
  "def main():\n" ++ parserText s.binding ++ callText s.binding ++ saveText s ++
    "\n\nif __name__ == '__main__':\n    main()\n"

/-- A constant with a text. -/
def constant (name value : String) : String := name ++ " = " ++ quoted value ++ "\n\n"

def render (s : Script) : String :=
  "#!/usr/bin/env python\n" ++ "# -*- coding: utf-8 -*-\n\n" ++ "import sys\n" ++
    "sys.path.append(" ++ quoted s.packagesDir ++ ")\n\n" ++
    "import argparse, json, subprocess\n" ++ joined "" (s.imports.map fun i => i ++ "\n") ++ "\n" ++
    ((s.binding.version.map (constant "__version__")).getD "") ++
    ((s.overrides.map (constant Overrides.constantName)).getD "") ++
    joined "" (s.helpers.map fun h => "\n" ++ trimmedEnd h ++ "\n\n") ++
    "\n" ++ trimmedEnd s.functionSource ++ "\n\n" ++ support ++ "\n\n" ++ mainText s

end Script
end Pipewright
