/-! The support code at the start of a generated module: the error type, the cursor that decoding
reads from, the two traits, and the functions for arrays, optional data and opaque data. Its
parameters and local names start with an underscore, which no name of a specification does. -/
namespace XdrSchema.Rust

/-- The error type and the result type. -/
def errorLines : List String :=
  ["/// Failure while decoding XDR data, or while re-validating a value for encoding.",
   "#[derive(Debug, Clone, Copy, PartialEq, Eq)]",
   "pub enum XdrError \x7b",
   "    /// The input ended before the value was complete.",
   "    UnexpectedEof,",
   "    /// A union discriminant matched no arm (or did not belong to its arm on encode).",
   "    InvalidUnionDiscriminant(i64),",
   "    /// An enum or bool word held a value outside the declared set.",
   "    InvalidEnumValue(i64),",
   "    /// A length prefix (or a value being encoded) exceeded its declared bound.",
   "    LengthExceedsBound \x7b max: u32, actual: u32 \x7d,",
   "    /// Padding after opaque or string data was not all zero.",
   "    NonZeroPadding,",
   "    /// Definitions nested deeper than the cursor's nesting budget.",
   "    DepthLimitExceeded,",
   "\x7d",
   "",
   "impl ::core::fmt::Display for XdrError \x7b",
   "    fn fmt(&self, _f: &mut ::core::fmt::Formatter<'_>) -> ::core::fmt::Result \x7b",
   "        match self \x7b",
   "            XdrError::UnexpectedEof => _f.write_str(\"unexpected end of XDR input\"),",
   "            XdrError::InvalidUnionDiscriminant(_v) => write!(_f, \"invalid union discriminant \x7b\x7d\", _v),",
   "            XdrError::InvalidEnumValue(_v) => write!(_f, \"invalid enum value \x7b\x7d\", _v),",
   "            XdrError::LengthExceedsBound \x7b max: _max, actual: _actual \x7d => \x7b",
   "                write!(_f, \"length \x7b\x7d exceeds bound \x7b\x7d\", _actual, _max)",
   "            \x7d",
   "            XdrError::NonZeroPadding => _f.write_str(\"non-zero XDR padding\"),",
   "            XdrError::DepthLimitExceeded => _f.write_str(\"XDR data nested too deeply\"),",
   "        \x7d",
   "    \x7d",
   "\x7d",
   "",
   "impl ::std::error::Error for XdrError \x7b\x7d",
   "",
   "pub type XdrResult<T> = ::core::result::Result<T, XdrError>;"]

/-- The read position, with its nesting budget. -/
def cursorLines : List String :=
  ["/// Nesting budget of `XdrCursor::new`.",
   "pub const XDR_DEFAULT_MAX_DEPTH: u32 = 128;",
   "",
   "/// Read position over an immutable input buffer.",
   "#[derive(Debug, Clone, Copy)]",
   "pub struct XdrCursor<'a> \x7b",
   "    buf: &'a [u8],",
   "    pos: usize,",
   "    depth: u32,",
   "\x7d",
   "",
   "impl<'a> XdrCursor<'a> \x7b",
   "    pub fn new(_buf: &'a [u8]) -> Self \x7b",
   "        XdrCursor::with_max_depth(_buf, XDR_DEFAULT_MAX_DEPTH)",
   "    \x7d",
   "",
   "    /// Cursor that allows definitions to nest `_max_depth` levels deep.",
   "    pub fn with_max_depth(_buf: &'a [u8], _max_depth: u32) -> Self \x7b",
   "        XdrCursor \x7b buf: _buf, pos: 0, depth: _max_depth \x7d",
   "    \x7d",
   "",
   "    pub fn position(&self) -> usize \x7b",
   "        self.pos",
   "    \x7d",
   "",
   "    pub fn remaining(&self) -> usize \x7b",
   "        self.buf.len() - self.pos",
   "    \x7d",
   "",
   "    /// Fail early when fewer than `_n` bytes are left.",
   "    pub fn ensure(&self, _n: u64) -> XdrResult<()> \x7b",
   "        if (self.remaining() as u64) < _n \x7b",
   "            return ::core::result::Result::Err(XdrError::UnexpectedEof);",
   "        \x7d",
   "        ::core::result::Result::Ok(())",
   "    \x7d",
   "",
   "    /// Run `_f` one nesting level deeper.",
   "    pub fn nested<T, F>(&mut self, _f: F) -> XdrResult<T>",
   "    where",
   "        F: FnOnce(&mut XdrCursor<'a>) -> XdrResult<T>,",
   "    \x7b",
   "        if self.depth == 0 \x7b",
   "            return ::core::result::Result::Err(XdrError::DepthLimitExceeded);",
   "        \x7d",
   "        self.depth -= 1;",
   "        let _result = _f(&mut *self);",
   "        self.depth += 1;",
   "        _result",
   "    \x7d",
   "",
   "    pub fn take(&mut self, _n: usize) -> XdrResult<&'a [u8]> \x7b",
   "        let _end = self.pos.checked_add(_n).ok_or(XdrError::UnexpectedEof)?;",
   "        let _bytes = self.buf.get(self.pos.._end).ok_or(XdrError::UnexpectedEof)?;",
   "        self.pos = _end;",
   "        ::core::result::Result::Ok(_bytes)",
   "    \x7d",
   "",
   "    fn take_array<const N: usize>(&mut self) -> XdrResult<[u8; N]> \x7b",
   "        let _bytes = self.take(N)?;",
   "        let mut _array = [0u8; N];",
   "        _array.copy_from_slice(_bytes);",
   "        ::core::result::Result::Ok(_array)",
   "    \x7d",
   "",
   "    pub fn read_u32(&mut self) -> XdrResult<u32> \x7b",
   "        ::core::result::Result::Ok(u32::from_be_bytes(self.take_array::<4>()?))",
   "    \x7d",
   "",
   "    pub fn read_u64(&mut self) -> XdrResult<u64> \x7b",
   "        ::core::result::Result::Ok(u64::from_be_bytes(self.take_array::<8>()?))",
   "    \x7d",
   "",
   "    /// Consume the zero padding that follows `_len` bytes of opaque data.",
   "    pub fn read_padding(&mut self, _len: usize) -> XdrResult<()> \x7b",
   "        let _pad = (4 - _len % 4) % 4;",
   "        if self.take(_pad)?.iter().any(|_b| *_b != 0) \x7b",
   "            return ::core::result::Result::Err(XdrError::NonZeroPadding);",
   "        \x7d",
   "        ::core::result::Result::Ok(())",
   "    \x7d",
   "",
   "    /// Read a length prefix and check it against `_max` before anything else is read.",
   "    pub fn read_length(&mut self, _max: u32) -> XdrResult<usize> \x7b",
   "        let _actual = self.read_u32()?;",
   "        if _actual > _max \x7b",
   "            return ::core::result::Result::Err(XdrError::LengthExceedsBound \x7b max: _max, actual: _actual \x7d);",
   "        \x7d",
   "        ::core::result::Result::Ok(_actual as usize)",
   "    \x7d",
   "",
   "    /// Variable-length opaque or string data, borrowed from the input.",
   "    pub fn read_opaque(&mut self, _max: u32) -> XdrResult<&'a [u8]> \x7b",
   "        let _len = self.read_length(_max)?;",
   "        let _data = self.take(_len)?;",
   "        self.read_padding(_len)?;",
   "        ::core::result::Result::Ok(_data)",
   "    \x7d",
   "",
   "    pub fn read_fixed_opaque<const N: usize>(&mut self) -> XdrResult<[u8; N]> \x7b",
   "        let _data = self.take_array::<N>()?;",
   "        self.read_padding(N)?;",
   "        ::core::result::Result::Ok(_data)",
   "    \x7d",
   "\x7d"]

/-- The two traits and their scalar instances. -/
def traitLines : List String :=
  ["pub trait XdrDecode<'a>: Sized \x7b",
   "    fn decode(_cur: &mut XdrCursor<'a>) -> XdrResult<Self>;",
   "",
   "    /// Decode one value from the start of `_buf`; returns it with the number of bytes consumed.",
   "    fn from_xdr(_buf: &'a [u8]) -> XdrResult<(Self, usize)> \x7b",
   "        let mut _cur = XdrCursor::new(_buf);",
   "        let _value = Self::decode(&mut _cur)?;",
   "        ::core::result::Result::Ok((_value, _cur.position()))",
   "    \x7d",
   "\x7d",
   "",
   "pub trait XdrEncode \x7b",
   "    fn encode(&self, _out: &mut ::std::vec::Vec<u8>) -> XdrResult<()>;",
   "",
   "    fn to_xdr(&self) -> XdrResult<::std::vec::Vec<u8>> \x7b",
   "        let mut _out = ::std::vec::Vec::new();",
   "        self.encode(&mut _out)?;",
   "        ::core::result::Result::Ok(_out)",
   "    \x7d",
   "\x7d",
   "",
   "macro_rules! xdr_word \x7b",
   "    ($ty:ty, $read:ident, $bits:ty) => \x7b",
   "        impl<'a> XdrDecode<'a> for $ty \x7b",
   "            fn decode(_cur: &mut XdrCursor<'a>) -> XdrResult<Self> \x7b",
   "                ::core::result::Result::Ok(_cur.$read()? as $ty)",
   "            \x7d",
   "        \x7d",
   "",
   "        impl XdrEncode for $ty \x7b",
   "            fn encode(&self, _out: &mut ::std::vec::Vec<u8>) -> XdrResult<()> \x7b",
   "                _out.extend_from_slice(&(*self as $bits).to_be_bytes());",
   "                ::core::result::Result::Ok(())",
   "            \x7d",
   "        \x7d",
   "    \x7d;",
   "\x7d",
   "",
   "xdr_word!(i32, read_u32, u32);",
   "xdr_word!(u32, read_u32, u32);",
   "xdr_word!(i64, read_u64, u64);",
   "xdr_word!(u64, read_u64, u64);",
   "",
   "impl<'a> XdrDecode<'a> for f32 \x7b",
   "    fn decode(_cur: &mut XdrCursor<'a>) -> XdrResult<Self> \x7b",
   "        ::core::result::Result::Ok(f32::from_bits(_cur.read_u32()?))",
   "    \x7d",
   "\x7d",
   "",
   "impl XdrEncode for f32 \x7b",
   "    fn encode(&self, _out: &mut ::std::vec::Vec<u8>) -> XdrResult<()> \x7b",
   "        _out.extend_from_slice(&self.to_bits().to_be_bytes());",
   "        ::core::result::Result::Ok(())",
   "    \x7d",
   "\x7d",
   "",
   "impl<'a> XdrDecode<'a> for f64 \x7b",
   "    fn decode(_cur: &mut XdrCursor<'a>) -> XdrResult<Self> \x7b",
   "        ::core::result::Result::Ok(f64::from_bits(_cur.read_u64()?))",
   "    \x7d",
   "\x7d",
   "",
   "impl XdrEncode for f64 \x7b",
   "    fn encode(&self, _out: &mut ::std::vec::Vec<u8>) -> XdrResult<()> \x7b",
   "        _out.extend_from_slice(&self.to_bits().to_be_bytes());",
   "        ::core::result::Result::Ok(())",
   "    \x7d",
   "\x7d",
   "",
   "impl<'a> XdrDecode<'a> for bool \x7b",
   "    fn decode(_cur: &mut XdrCursor<'a>) -> XdrResult<Self> \x7b",
   "        match _cur.read_u32()? \x7b",
   "            0 => ::core::result::Result::Ok(false),",
   "            1 => ::core::result::Result::Ok(true),",
   "            _v => ::core::result::Result::Err(XdrError::InvalidEnumValue(_v as i64)),",
   "        \x7d",
   "    \x7d",
   "\x7d",
   "",
   "impl XdrEncode for bool \x7b",
   "    fn encode(&self, _out: &mut ::std::vec::Vec<u8>) -> XdrResult<()> \x7b",
   "        (*self as u32).encode(_out)",
   "    \x7d",
   "\x7d"]

/-- Arrays, optional data and opaque data. -/
def helperLines : List String :=
  ["pub fn decode_fixed_array<'a, T, F, const N: usize>(_cur: &mut XdrCursor<'a>, mut _f: F) -> XdrResult<[T; N]>",
   "where",
   "    F: FnMut(&mut XdrCursor<'a>) -> XdrResult<T>,",
   "\x7b",
   "    let mut _items = ::std::vec::Vec::with_capacity(N.min(_cur.remaining()));",
   "    for _ in 0..N \x7b",
   "        _items.push(_f(_cur)?);",
   "    \x7d",
   "    <[T; N] as ::core::convert::TryFrom<::std::vec::Vec<T>>>::try_from(_items)",
   "        .map_err(|_| XdrError::UnexpectedEof)",
   "\x7d",
   "",
   "pub fn decode_var_array<'a, T, F>(_cur: &mut XdrCursor<'a>, _max: u32, mut _f: F) -> XdrResult<::std::vec::Vec<T>>",
   "where",
   "    F: FnMut(&mut XdrCursor<'a>) -> XdrResult<T>,",
   "\x7b",
   "    let _len = _cur.read_length(_max)?;",
   "    let mut _items = ::std::vec::Vec::with_capacity(_len.min(_cur.remaining()));",
   "    for _ in 0.._len \x7b",
   "        _items.push(_f(_cur)?);",
   "    \x7d",
   "    ::core::result::Result::Ok(_items)",
   "\x7d",
   "",
   "pub fn decode_optional<'a, T, F>(_cur: &mut XdrCursor<'a>, _f: F) -> XdrResult<::core::option::Option<::std::boxed::Box<T>>>",
   "where",
   "    F: FnOnce(&mut XdrCursor<'a>) -> XdrResult<T>,",
   "\x7b",
   "    match _cur.read_u32()? \x7b",
   "        0 => ::core::result::Result::Ok(::core::option::Option::None),",
   "        1 => ::core::result::Result::Ok(::core::option::Option::Some(::std::boxed::Box::new(_f(_cur)?))),",
   "        _v => ::core::result::Result::Err(XdrError::InvalidUnionDiscriminant(_v as i64)),",
   "    \x7d",
   "\x7d",
   "",
   "/// Length of a value about to be encoded, checked against its declared bound.",
   "pub fn check_length(_len: usize, _max: u32) -> XdrResult<u32> \x7b",
   "    if _len > _max as usize \x7b",
   "        let _actual = if _len > u32::MAX as usize \x7b u32::MAX \x7d else \x7b _len as u32 \x7d;",
   "        return ::core::result::Result::Err(XdrError::LengthExceedsBound \x7b max: _max, actual: _actual \x7d);",
   "    \x7d",
   "    ::core::result::Result::Ok(_len as u32)",
   "\x7d",
   "",
   "pub fn encode_fixed_array<T, F>(_items: &[T], _out: &mut ::std::vec::Vec<u8>, mut _f: F) -> XdrResult<()>",
   "where",
   "    F: FnMut(&T, &mut ::std::vec::Vec<u8>) -> XdrResult<()>,",
   "\x7b",
   "    for _item in _items \x7b",
   "        _f(_item, _out)?;",
   "    \x7d",
   "    ::core::result::Result::Ok(())",
   "\x7d",
   "",
   "pub fn encode_var_array<T, F>(_items: &[T], _max: u32, _out: &mut ::std::vec::Vec<u8>, mut _f: F) -> XdrResult<()>",
   "where",
   "    F: FnMut(&T, &mut ::std::vec::Vec<u8>) -> XdrResult<()>,",
   "\x7b",
   "    check_length(_items.len(), _max)?.encode(_out)?;",
   "    for _item in _items \x7b",
   "        _f(_item, _out)?;",
   "    \x7d",
   "    ::core::result::Result::Ok(())",
   "\x7d",
   "",
   "pub fn encode_optional<T, F>(_value: &::core::option::Option<::std::boxed::Box<T>>, _out: &mut ::std::vec::Vec<u8>, _f: F) -> XdrResult<()>",
   "where",
   "    F: FnOnce(&T, &mut ::std::vec::Vec<u8>) -> XdrResult<()>,",
   "\x7b",
   "    match _value \x7b",
   "        ::core::option::Option::None => 0u32.encode(_out),",
   "        ::core::option::Option::Some(_inner) => \x7b",
   "            1u32.encode(_out)?;",
   "            _f(&**_inner, _out)",
   "        \x7d",
   "    \x7d",
   "\x7d",
   "",
   "pub fn encode_opaque(_data: &[u8], _max: u32, _out: &mut ::std::vec::Vec<u8>) -> XdrResult<()> \x7b",
   "    check_length(_data.len(), _max)?.encode(_out)?;",
   "    encode_fixed_opaque(_data, _out)",
   "\x7d",
   "",
   "pub fn encode_fixed_opaque(_data: &[u8], _out: &mut ::std::vec::Vec<u8>) -> XdrResult<()> \x7b",
   "    _out.extend_from_slice(_data);",
   "    _out.resize(_out.len() + (4 - _data.len() % 4) % 4, 0);",
   "    ::core::result::Result::Ok(())",
   "\x7d"]

/-- The whole support code; an empty line stands between its parts. -/
def supportLines : List String :=
  errorLines ++ [""] ++ cursorLines ++ [""] ++ traitLines ++ [""] ++ helperLines

end XdrSchema.Rust
